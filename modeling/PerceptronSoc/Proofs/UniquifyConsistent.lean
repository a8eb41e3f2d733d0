import PerceptronSoc.Proofs.UniquifyHierarchy

/-! When the files and the emitted hierarchy agree after `uniquify_modules_under_model`. -/

namespace PerceptronSoc.Uniquify

open Renewal Worklist

variable {a : Args} {common : List String} {top tree : Hier} {st₀ st : State}

/-- The modules under the model are those of the visited instances. -/
theorem bfsCollectModules_eq (a : Args) (tree : Hier) :
    bfsCollectModules tree (some a.dut) = (visits a tree).map Prod.snd := by
  have hkids : ∀ b : Option String × Hier,
      (b.2.instances.filter fun c => some c.moduleName ≠ some a.dut) =
        (kids a b).map Prod.snd := by
    intro b
    rw [kids, List.map_map]
    simp [Function.comp_def]
  unfold bfsCollectModules visits
  rw [show [tree] = [((none : Option String), tree)].map Prod.snd from rfl,
    order_map Prod.snd hkids, List.map_map, List.map_map]
  rfl

theorem visited_of_common {m : String} (h : m ∈ commonModules a top tree) :
    ∃ p t, Visited a tree (p, t) ∧ t.moduleName = m := by
  have hmem := of_decide_eq_true (List.mem_filter.mp h).2
  rw [bfsCollectModules_eq] at hmem
  obtain ⟨⟨p, m'⟩, hv, rfl⟩ := List.mem_map.mp hmem
  obtain ⟨t, ht, rfl⟩ := mem_visits.mp hv
  exact ⟨p, t, ht, rfl⟩

theorem Fresh.uniquified_not_common (hf : Fresh a (commonModules a top tree) tree st₀) {m : String}
    (hm : m ∈ commonModules a top tree) : a.uniquified m ∉ commonModules a top tree := by
  intro h
  obtain ⟨p, t, hv, heq⟩ := visited_of_common h
  exact hf.modules m hm p t hv heq.symm

/-- The names that the emitted hierarchy has below the root are not common. -/
theorem emittedName_not_common (hf : Fresh a (commonModules a top tree) tree st₀) {m : String}
    (hne : m ≠ a.dut) :
    emittedName a (commonModules a top tree) m ∉ commonModules a top tree := by
  unfold emittedName
  split
  · next h => exact hf.uniquified_not_common h.1
  · next h => exact fun hm => h ⟨hm, hne⟩

/-- Without a file before, an instance has none after, unless it is renamed. -/
theorem emittedAt_external (hf : Fresh a common tree st₀)
    (ht : Tracks a common tree st₀ (visits a tree) st) (hs : Survives a common tree st₀)
    {p : Option String} {t : Hier} (hv : Visited a tree (p, t))
    (hfile : st₀.moduleFile t.moduleName = none) :
    st.moduleFile (emittedAt a common (p, t)).moduleName = none := by
  rw [← hfile, ← ht.file hf hv]
  congr 1
  cases p with
  | none => exact dfs_moduleName t
  | some m =>
    rw [emittedAt, emitted_moduleName]
    refine if_neg fun h => ?_
    obtain ⟨f, hf'⟩ := hs.external m t hv h.1
    simp [hfile] at hf'

theorem agrees_iff (hd : Design a tree st₀) (hf : Fresh a common tree st₀)
    (hroot : tree.moduleName ≠ a.dut) (ht : Tracks a common tree st₀ (visits a tree) st) :
    (∀ t f, Outside a.dut (dfsUpdateModules a common tree).1 t →
      st.moduleFile t.moduleName = some f →
      ∃ v, st.files f = some v ∧ v.instantiates.Perm (t.instances.map Hier.moduleName)) ↔
    Survives a common tree st₀ := by
  constructor
  · intro h
    rw [← allEdited_iff hroot]
    intro p t c hv hc hm hne
    obtain ⟨f, hfile⟩ := hd.file_of_instance hv hc
    obtain ⟨v, hvf⟩ := hd.present _ f hfile
    obtain ⟨g, d, hg, hgf⟩ := emittedAt_file hf ht hv hfile hvf
    obtain ⟨w, hw, hperm⟩ := h _ g ((outside_iff hf hroot).mpr ⟨_, hv, rfl⟩) hg
    obtain rfl := Option.some.inj (hgf.symm.trans hw)
    exact (agreesAt_iff hd hf hv hfile hvf).mp hperm c hc hm hne
  · intro hs t' f' hout hf'
    obtain ⟨⟨p, t⟩, hv, rfl⟩ := (outside_iff hf hroot).mp hout
    cases hfile : st₀.moduleFile t.moduleName with
    | none => simp [emittedAt_external hf ht hs hv hfile] at hf'
    | some f =>
      obtain ⟨v, hvf⟩ := hd.present _ f hfile
      obtain ⟨g, d, hg, hgf⟩ := emittedAt_file hf ht hv hfile hvf
      obtain rfl := Option.some.inj (hg.symm.trans hf')
      exact ⟨_, hgf, (agreesAt_iff hd hf hv hfile hvf).mpr
        fun c hc => (allEdited_iff hroot).mpr hs p t c hv hc⟩

/-- Where every module has a file of its own, the files agree with the hierarchy and no new
name is in use, the passes end; and the files and the emitted hierarchy then agree, with the
DUT and the common modules' own files untouched, exactly if no copy is made again after an
instance in it was renamed, every common module below the root has a file, a common root has
no common instance, and the root is not itself a DUT with common modules below. -/
theorem uniquify_consistent_iff (a : Args) (top tree : Hier) (st : State) (hd : Design a tree st)
    (hf : Fresh a (commonModules a top tree) tree st) :
    ∃ tree' st', uniquifyModulesUnderModel a (commonModules a top tree) tree st =
        some (tree', st') ∧
      (Consistent a (commonModules a top tree) tree st tree' st' ↔
        Survives a (commonModules a top tree) tree st) := by
  obtain ⟨st', hrun, ht⟩ := bfsUniquifyModules_tracks hd hf
  refine ⟨(dfsUpdateModules a (commonModules a top tree) tree).1, st', ?_, ?_⟩
  · rw [uniquifyModulesUnderModel, hrun]
  · by_cases hroot : tree.moduleName = a.dut
    · -- everything is the DUT: nothing may change
      have hroot' : (dfsUpdateModules a (commonModules a top tree) tree).1.moduleName = a.dut := by
        rw [dfs_moduleName, hroot]
      constructor
      · intro h
        have hsame := h.dut
        rw [duts_of_eq hroot, duts_of_eq hroot', List.singleton_inj] at hsame
        exact survives_of_none_below ((dfs_eq_self_iff hf).mp hsame)
      · intro h
        refine ⟨fun t f hout => absurd hout (not_outside hroot'),
          fun t c f hout => absurd hout (not_outside hroot'), ?_, ht.contents.originals⟩
        rw [(dfs_eq_self_iff hf).mpr (h.dut hroot)]
    · rw [← agrees_iff hd hf hroot ht]
      refine ⟨fun h => h.agrees, fun h => ⟨h, ?_, duts_dfs hf hroot, ht.contents.originals⟩⟩
      intro t' c' f hout hc hne _
      obtain ⟨⟨p, t⟩, hv, rfl⟩ := (outside_iff hf hroot).mp hout
      rw [emittedAt_instances hv] at hc
      obtain ⟨c, -, rfl⟩ := List.mem_map.mp hc
      rw [emitted_moduleName] at hne ⊢
      exact emittedName_not_common hf fun h => hne ((emittedName_eq_dut hf).mpr h)

def tableFiles (table : List (String × List String)) : State where
  files f := if f.ext = ".sv" then (table.lookup f.stem).map fun cs => ⟨f.stem, cs⟩ else none
  moduleFile m := (table.lookup m).map fun _ => ⟨m, ".sv"⟩
  updated := []

variable {table : List (String × List String)}

theorem moduleFile_tableFiles {m : String} {f : FileName}
    (h : (tableFiles table).moduleFile m = some f) :
    f = ⟨m, ".sv"⟩ ∧ ∃ cs, table.lookup m = some cs ∧ (tableFiles table).files f = some ⟨m, cs⟩ := by
  obtain ⟨cs, hcs, rfl⟩ := Option.map_eq_some_iff.mp h
  exact ⟨rfl, cs, hcs, by simp [tableFiles, hcs]⟩

theorem forall_visited {P : Option String × Hier → Prop}
    (h : ∀ b ∈ order (kids a) tree.size [(none, tree)], P b) :
    ∀ p t, Visited a tree (p, t) → P (p, t) := fun _ _ hv =>
  h _ ((mem_order_iff (kids_size a) (by simp)).mpr hv)

theorem design_tableFiles (h : ∀ b ∈ order (kids a) tree.size [(none, tree)],
    (table.lookup b.2.moduleName).getD [] = b.2.instances.map Hier.moduleName) :
    Design a tree (tableFiles table) := by
  have hv := forall_visited h
  refine ⟨?_, ?_, ?_, ?_⟩
  · intro m m' f hm hm'
    have heq := (moduleFile_tableFiles hm).1.symm.trans (moduleFile_tableFiles hm').1
    exact congrArg FileName.stem heq
  · intro m f hm
    obtain ⟨-, cs, -, hf⟩ := moduleFile_tableFiles hm
    exact ⟨_, hf⟩
  · intro p t ht hnone
    have hcs := hv p t ht
    rw [Option.map_eq_none_iff.mp hnone] at hcs
    exact List.map_eq_nil_iff.mp hcs.symm
  · intro p t f v ht hm hvf
    have hcs := hv p t ht
    obtain ⟨-, cs, hlook, hf⟩ := moduleFile_tableFiles hm
    obtain rfl := Option.some.inj (hf.symm.trans hvf)
    rw [hlook] at hcs
    exact hcs ▸ List.Perm.refl _

theorem fresh_tableFiles (h : ∀ m ∈ common, a.uniquified m ≠ a.dut ∧
      (∀ b ∈ order (kids a) tree.size [(none, tree)], a.uniquified m ≠ b.2.moduleName) ∧
      table.lookup (a.uniquified m) = none) :
    Fresh a common tree (tableFiles table) := by
  refine ⟨fun m hm => (h m hm).1, fun m hm => forall_visited (h m hm).2.1, ?_⟩
  intro m hm f hf m' g hg heq
  obtain ⟨rfl, -⟩ := moduleFile_tableFiles hf
  obtain ⟨rfl, cs, hcs, -⟩ := moduleFile_tableFiles hg
  have hname : a.uniquified m = m' := congrArg FileName.stem heq
  rw [← hname, (h m hm).2.2] at hcs
  cases hcs

def queue (i : String) : Hier := .node i "Queue" [.node "ram" "Ram" []]

def chipTop : Hier := .node "chiptop" "ChipTop" [queue "q"]

def testHarness : Args := ⟨"ChipTop", "TestHarness"⟩

/-- All queues at one depth. -/
def flatHarness : Hier := .node "TestHarness" "TestHarness" [queue "a", queue "b", chipTop]

/-- One queue beside an adapter that has one. -/
def deepHarness : Hier :=
  .node "TestHarness" "TestHarness" [queue "a", .node "adapter" "Adapter" [queue "b"], chipTop]

def flatTable : List (String × List String) :=
  [("TestHarness", ["Queue", "Queue", "ChipTop"]), ("ChipTop", ["Queue"]), ("Queue", ["Ram"]),
    ("Ram", [])]

def deepTable : List (String × List String) :=
  ("TestHarness", ["Queue", "Adapter", "ChipTop"]) :: ("Adapter", ["Queue"]) :: flatTable

/-- Both queues of the flat harness are copied before their memories are visited. -/
theorem flatHarness_consistent :
    ∃ tree' st', uniquifyModulesUnderModel testHarness (commonModules testHarness chipTop flatHarness)
        flatHarness (tableFiles flatTable) = some (tree', st') ∧
      Consistent testHarness (commonModules testHarness chipTop flatHarness) flatHarness
        (tableFiles flatTable) tree' st' := by
  obtain ⟨tree', st', hrun, hiff⟩ := uniquify_consistent_iff testHarness chipTop flatHarness
    (tableFiles flatTable) (design_tableFiles (by decide)) (fresh_tableFiles (by decide))
  refine ⟨tree', st', hrun, hiff.mpr ⟨?_, ?_, ?_, ?_⟩⟩
  · intro m t hv _
    have hsome : ((tableFiles flatTable).moduleFile t.moduleName).isSome = true :=
      forall_visited (P := fun b => ((tableFiles flatTable).moduleFile b.2.moduleName).isSome = true)
        (by decide) _ t hv
    exact Option.isSome_iff_exists.mp hsome
  · exact fun h => absurd h (by decide)
  · have hnever : (visits testHarness flatHarness).Pairwise fun x y => x.1 ≠ some y.2 := by decide
    exact hnever.imp fun h hl => h hl.1
  · exact fun h => absurd h (by decide)

/-- The adapter's queue is copied again after the first queue's memory was renamed in the
copy, and the second rename is skipped. -/
theorem deepHarness_inconsistent :
    Design testHarness deepHarness (tableFiles deepTable) ∧
    Fresh testHarness (commonModules testHarness chipTop deepHarness) deepHarness
      (tableFiles deepTable) ∧
    ∃ tree' st', uniquifyModulesUnderModel testHarness (commonModules testHarness chipTop deepHarness)
        deepHarness (tableFiles deepTable) = some (tree', st') ∧
      ¬Consistent testHarness (commonModules testHarness chipTop deepHarness) deepHarness
        (tableFiles deepTable) tree' st' := by
  refine ⟨design_tableFiles (by decide), fresh_tableFiles (by decide), _, _, rfl, fun h => ?_⟩
  have hout : Outside testHarness.dut
      (dfsUpdateModules testHarness (commonModules testHarness chipTop deepHarness) deepHarness).1
      (emitted testHarness (commonModules testHarness chipTop deepHarness) (queue "a")) :=
    .child (.root (by decide))
      (by rw [dfs_instances]; exact List.mem_map_of_mem List.mem_cons_self) (by decide)
  obtain ⟨v, hv, hperm⟩ := h.agrees _ ⟨"Queue_TestHarness_UNIQUIFIED", ".sv"⟩ hout (by decide)
  obtain rfl : (⟨"Queue_TestHarness_UNIQUIFIED", ["Ram"]⟩ : VerilogFile) = v :=
    Option.some.inj (Eq.trans (by decide) hv)
  exact absurd hperm (by decide)

end PerceptronSoc.Uniquify
