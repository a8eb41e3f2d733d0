import PerceptronSoc.Proofs.UniquifyFiles

/-! The emitted hierarchy against the files. The depth-first pass gives every common
module below the root its new name; the file of a renamed module has the new names of its
instances unless a later copy of it came after the edit. -/

namespace PerceptronSoc

@[simp] theorem Hier.moduleName_setModuleName (t : Hier) (m : String) :
    (t.setModuleName m).moduleName = m := by
  cases t
  rfl

@[simp] theorem Hier.instances_setModuleName (t : Hier) (m : String) :
    (t.setModuleName m).instances = t.instances := by
  cases t
  rfl

theorem Hier.induct {P : Hier → Prop} (h : ∀ t : Hier, (∀ c ∈ t.instances, P c) → P t) (t : Hier) :
    P t := by
  refine @Hier.rec P (fun cs => ∀ c ∈ cs, P c) ?_ ?_ ?_ t
  · intro i m cs ih
    exact h (.node i m cs) ih
  · simp
  · intro c cs hc hcs d hd
    rcases List.mem_cons.mp hd with rfl | hd
    · exact hc
    · exact hcs d hd

namespace Uniquify

open Renewal Worklist

variable {a : Args} {common : List String} {tree : Hier} {st₀ : State}

/-- An instance of the emitted hierarchy from the one of the model. -/
def emitted (a : Args) (common : List String) (c : Hier) : Hier :=
  if c.moduleName = a.dut then c
  else if c.moduleName ∈ common then
    (dfsUpdateModules a common c).1.setModuleName (a.uniquified c.moduleName)
  else (dfsUpdateModules a common c).1

def emittedName (a : Args) (common : List String) (m : String) : String :=
  if m ∈ common ∧ m ≠ a.dut then a.uniquified m else m

theorem dfsUpdateInstances_eq (cs : List Hier) :
    (dfsUpdateInstances a common cs).1 = cs.map (emitted a common) := by
  induction cs with
  | nil => rfl
  | cons c cs ih =>
    obtain ⟨i, m, ds⟩ := c
    simp only [dfsUpdateInstances, List.map_cons, emitted, Hier.moduleName]
    by_cases hd : m = a.dut
    · simp [hd, ih]
    · -- a common module always reports an update
      by_cases hm : m ∈ common
      · simp [dfsUpdateModules, hd, hm, ih]
      · simp [hd, hm, ih]

theorem dfs_moduleName (t : Hier) : (dfsUpdateModules a common t).1.moduleName = t.moduleName := by
  cases t
  rfl

theorem dfs_instances (t : Hier) :
    (dfsUpdateModules a common t).1.instances = t.instances.map (emitted a common) := by
  obtain ⟨i, m, cs⟩ := t
  rw [Hier.instances, ← dfsUpdateInstances_eq]
  rfl

theorem emitted_moduleName (c : Hier) :
    (emitted a common c).moduleName = emittedName a common c.moduleName := by
  unfold emitted emittedName
  by_cases hd : c.moduleName = a.dut
  · simp [hd]
  · by_cases hm : c.moduleName ∈ common
    · rw [if_neg hd, if_pos hm, if_pos ⟨hm, hd⟩, Hier.moduleName_setModuleName]
    · rw [if_neg hd, if_neg hm, if_neg fun h => hm h.1, dfs_moduleName]

theorem emitted_instances {c : Hier} (hd : c.moduleName ≠ a.dut) :
    (emitted a common c).instances = c.instances.map (emitted a common) := by
  rw [← dfs_instances, emitted, if_neg hd]
  split
  · exact Hier.instances_setModuleName _ _
  · rfl

mutual

/-- The DUTs with all below them, from left to right. -/
def duts (dut : String) : Hier → List Hier
  | .node i m cs => if m = dut then [.node i m cs] else dutsOf dut cs

def dutsOf (dut : String) : List Hier → List Hier
  | [] => []
  | c :: cs => duts dut c ++ dutsOf dut cs

end

theorem dutsOf_eq (dut : String) (cs : List Hier) : dutsOf dut cs = cs.flatMap (duts dut) := by
  induction cs with
  | nil => rfl
  | cons c cs ih => rw [dutsOf, ih, List.flatMap_cons]

theorem duts_of_eq {dut : String} {t : Hier} (h : t.moduleName = dut) : duts dut t = [t] := by
  obtain ⟨i, m, cs⟩ := t
  exact if_pos h

theorem duts_of_ne {dut : String} {t : Hier} (h : t.moduleName ≠ dut) :
    duts dut t = t.instances.flatMap (duts dut) := by
  obtain ⟨i, m, cs⟩ := t
  rw [← dutsOf_eq]
  exact if_neg h

theorem emittedName_eq_dut (hf : Fresh a common tree st₀) {m : String} :
    emittedName a common m = a.dut ↔ m = a.dut := by
  unfold emittedName
  split
  · next h => exact iff_of_false (hf.dut m h.1) h.2
  · rfl

/-- No DUT changes. -/
theorem duts_emitted (hf : Fresh a common tree st₀) (t : Hier) :
    duts a.dut (emitted a common t) = duts a.dut t := by
  induction t using Hier.induct with
  | h t ih =>
    by_cases hd : t.moduleName = a.dut
    · rw [emitted, if_pos hd]
    · have hd' : (emitted a common t).moduleName ≠ a.dut := by
        rw [emitted_moduleName]
        exact fun h => hd ((emittedName_eq_dut hf).mp h)
      rw [duts_of_ne hd, duts_of_ne hd', emitted_instances hd, List.flatMap_map]
      exact List.flatMap_congr fun c hc => ih c hc

theorem duts_dfs (hf : Fresh a common tree st₀) {t : Hier} (hd : t.moduleName ≠ a.dut) :
    duts a.dut (dfsUpdateModules a common t).1 = duts a.dut t := by
  rw [duts_of_ne hd, duts_of_ne (by rw [dfs_moduleName]; exact hd), dfs_instances,
    List.flatMap_map]
  exact List.flatMap_congr fun c _ => duts_emitted hf c

inductive Outside (dut : String) (tree : Hier) : Hier → Prop
  | root : tree.moduleName ≠ dut → Outside dut tree tree
  | child {t c : Hier} : Outside dut tree t → c ∈ t.instances → c.moduleName ≠ dut →
      Outside dut tree c

/-- From `tree` and `st` to `tree'` and `st'`: outside the DUT the file of every instance's
module instantiates what the hierarchy has, no module below the root that has a file is
common any more, and the DUT and the files of the common modules are what they were. -/
structure Consistent (a : Args) (common : List String) (tree : Hier) (st : State) (tree' : Hier)
    (st' : State) : Prop where
  agrees : ∀ t f, Outside a.dut tree' t → st'.moduleFile t.moduleName = some f →
    ∃ v, st'.files f = some v ∧ v.instantiates.Perm (t.instances.map Hier.moduleName)
  renamed : ∀ t c f, Outside a.dut tree' t → c ∈ t.instances → c.moduleName ≠ a.dut →
    st'.moduleFile c.moduleName = some f → c.moduleName ∉ common
  dut : duts a.dut tree' = duts a.dut tree
  originals : ∀ m f, m ∈ common → st.moduleFile m = some f → st'.files f = st.files f

/-- What becomes of a visited instance; the root keeps its name. -/
def emittedAt (a : Args) (common : List String) : Option String × Hier → Hier
  | (none, t) => (dfsUpdateModules a common t).1
  | (some _, t) => emitted a common t

theorem Visited.moduleName_ne {m : String} {t : Hier} (h : Visited a tree (some m, t)) :
    t.moduleName ≠ a.dut := by
  rcases Visited.cases h with ⟨h, -⟩ | ⟨q, s, -, -, -, hne⟩
  · cases h
  · exact hne

theorem emittedAt_instances {p : Option String} {t : Hier} (h : Visited a tree (p, t)) :
    (emittedAt a common (p, t)).instances = t.instances.map (emitted a common) := by
  cases p with
  | none => exact dfs_instances t
  | some m => exact emitted_instances h.moduleName_ne

theorem emittedAt_instanceNames {p : Option String} {t : Hier} (h : Visited a tree (p, t)) :
    (emittedAt a common (p, t)).instances.map Hier.moduleName =
      (t.instances.map Hier.moduleName).map (emittedName a common) := by
  rw [emittedAt_instances h, List.map_map, List.map_map]
  exact List.map_congr_left fun c _ => emitted_moduleName c

/-- Outside the DUT, the emitted hierarchy is what becomes of the visited instances. -/
theorem outside_iff (hf : Fresh a common tree st₀) (hroot : tree.moduleName ≠ a.dut) {t' : Hier} :
    Outside a.dut (dfsUpdateModules a common tree).1 t' ↔
      ∃ b, Visited a tree b ∧ t' = emittedAt a common b := by
  constructor
  · intro h
    induction h with
    | root _ => exact ⟨(none, tree), visited_root, rfl⟩
    | child _ hc hne ih =>
      obtain ⟨⟨p, t⟩, hv, rfl⟩ := ih
      rw [emittedAt_instances hv] at hc
      obtain ⟨c, hmem, rfl⟩ := List.mem_map.mp hc
      rw [emitted_moduleName, Ne, emittedName_eq_dut hf] at hne
      exact ⟨(some t.moduleName, c), Visited.instance hv hmem hne, rfl⟩
  · rintro ⟨⟨p, t⟩, hv, rfl⟩
    refine Visited.induct ?_ (fun q s c hs ih hc hne => ?_) hv
    · exact .root (by rw [dfs_moduleName]; exact hroot)
    · refine ih.child ?_ ?_
      · rw [emittedAt_instances hs]
        exact List.mem_map_of_mem hc
      · rw [emittedAt, emitted_moduleName, Ne, emittedName_eq_dut hf]
        exact hne

/-- A root that is the DUT has nothing outside. -/
theorem not_outside {dut : String} {t : Hier} (h : tree.moduleName = dut) :
    ¬Outside dut tree t := by
  intro ht
  induction ht with
  | root hne => exact hne h
  | child _ _ _ ih => exact ih

/-- An edited list of instances has the emitted names exactly if every common module in it
has been edited. -/
theorem perm_edit_iff {refs names : List String} {e : String → Prop} (hp : refs.Perm names)
    (hnew : ∀ m ∈ common, a.uniquified m ∉ names)
    (he : ∀ c, e c → c ∈ common ∧ c ≠ a.dut) :
    (refs.map (edit a e)).Perm (names.map (emittedName a common)) ↔
      ∀ c ∈ names, c ∈ common → c ≠ a.dut → e c := by
  constructor
  · intro h c hc hm hd
    have hmem : a.uniquified c ∈ names.map (emittedName a common) :=
      List.mem_map.mpr ⟨c, hc, if_pos ⟨hm, hd⟩⟩
    obtain ⟨r, hr, hedit⟩ := List.mem_map.mp (h.mem_iff.mpr hmem)
    unfold edit at hedit
    split at hedit
    · next her => exact uniquified_inj.mp hedit ▸ her
    · exact absurd (hedit ▸ hp.mem_iff.mp hr) (hnew c hm)
  · intro h
    have heq : names.map (edit a e) = names.map (emittedName a common) := by
      refine List.map_congr_left fun c hc => ?_
      unfold edit emittedName
      by_cases hec : e c
      · rw [if_pos hec, if_pos (he c hec)]
      · rw [if_neg hec, if_neg fun ⟨hm, hd⟩ => hec (h c hc hm hd)]
    rw [← heq]
    exact hp.map (edit a e)

/-- The edits in the file that the emitted hierarchy finds for an instance: a common root
keeps its name, so its file is the one that is never edited. -/
def EditedAt (a : Args) (common : List String) (tree : Hier) (st : State) (p : Option String)
    (m c : String) : Prop :=
  ¬(p = none ∧ m ∈ common) ∧ Kept (Shared common st) (visits a tree) m c

variable {st : State} {p : Option String} {t : Hier}

theorem emittedAt_file (hf : Fresh a common tree st₀)
    (ht : Tracks a common tree st₀ (visits a tree) st) (hv : Visited a tree (p, t))
    {f : FileName} {v : VerilogFile} (hfile : st₀.moduleFile t.moduleName = some f)
    (hvf : st₀.files f = some v) :
    ∃ g d, st.moduleFile (emittedAt a common (p, t)).moduleName = some g ∧
      st.files g =
        some ⟨d, v.instantiates.map (edit a (EditedAt a common tree st₀ p t.moduleName))⟩ := by
  by_cases hr : p = none ∧ t.moduleName ∈ common
  · obtain ⟨rfl, hm⟩ := hr
    refine ⟨f, v.declares, ?_, ?_⟩
    · rw [emittedAt, dfs_moduleName, ht.file hf hv, hfile]
    · have hnone : EditedAt a common tree st₀ none t.moduleName = fun _ => False :=
        funext fun c => eq_false fun h => h.1 ⟨rfl, hm⟩
      rw [ht.contents.originals _ f hm hfile, hvf, hnone, map_edit_none]
  · have hedit : EditedAt a common tree st₀ p t.moduleName =
        Kept (Shared common st₀) (visits a tree) t.moduleName :=
      funext fun c => propext (and_iff_right hr)
    have hname : (emittedAt a common (p, t)).moduleName =
        newName a common st₀ t.moduleName := by
      by_cases hm : t.moduleName ∈ common
      · cases p with
        | none => exact absurd ⟨rfl, hm⟩ hr
        | some q =>
          rw [emittedAt, emitted_moduleName, newName_of_shared ⟨hm, f, hfile⟩, emittedName,
            if_pos ⟨hm, hv.moduleName_ne⟩]
      · rw [newName_of_not_shared fun h => hm h.1]
        cases p with
        | none => exact dfs_moduleName t
        | some q => rw [emittedAt, emitted_moduleName, emittedName, if_neg fun h => hm h.1]
    have hseen : ∃ q, (q, t.moduleName) ∈ visits a tree := ⟨p, mem_visits.mpr ⟨t, hv, rfl⟩⟩
    obtain ⟨d, hwork⟩ := ht.contents.work _ f v hfile hvf fun _ => hseen
    refine ⟨_, d, ?_, hedit ▸ hwork⟩
    rw [hname]
    exact ht.workFile hf hv hfile fun _ => hseen

theorem agreesAt_iff (hd : Design a tree st₀) (hf : Fresh a common tree st₀)
    (hv : Visited a tree (p, t)) {f : FileName} {v : VerilogFile}
    (hfile : st₀.moduleFile t.moduleName = some f) (hvf : st₀.files f = some v) :
    (v.instantiates.map (edit a (EditedAt a common tree st₀ p t.moduleName))).Perm
        ((emittedAt a common (p, t)).instances.map Hier.moduleName) ↔
      ∀ c ∈ t.instances, c.moduleName ∈ common → c.moduleName ≠ a.dut →
        EditedAt a common tree st₀ p t.moduleName c.moduleName := by
  rw [emittedAt_instanceNames hv, perm_edit_iff (hd.agrees p t f v hv hfile hvf)]
  · simp
  · intro m hm hmem
    obtain ⟨c, hc, heq⟩ := List.mem_map.mp hmem
    exact hf.instance hm hv hc heq.symm
  · rintro c ⟨-, hk⟩
    obtain ⟨s, hs, rfl⟩ := mem_visits.mp hk.mem
    exact ⟨hk.1.1, hs.moduleName_ne⟩

/-- The edits that the emitted names ask for are made and last. -/
structure Survives (a : Args) (common : List String) (tree : Hier) (st : State) : Prop where
  /-- a common module below the root has a file -/
  external : ∀ m t, Visited a tree (some m, t) → t.moduleName ∈ common →
    ∃ f, st.moduleFile t.moduleName = some f
  /-- a common root has no common instance -/
  root : tree.moduleName ∈ common → ∀ c ∈ tree.instances, c.moduleName ≠ a.dut →
    c.moduleName ∉ common
  /-- no copy is made again after the visit of a common instance of its module -/
  order : (visits a tree).Pairwise fun x y => ¬Loses (Shared common st) x y
  /-- nothing is common below a root that is the DUT -/
  dut : tree.moduleName = a.dut → ∀ m t, Visited a tree (some m, t) → t.moduleName ∉ common

/-- Every common instance is edited, in the file the emitted hierarchy finds. -/
def AllEdited (a : Args) (common : List String) (tree : Hier) (st : State) : Prop :=
  ∀ p t c, Visited a tree (p, t) → c ∈ t.instances → c.moduleName ∈ common →
    c.moduleName ≠ a.dut → EditedAt a common tree st p t.moduleName c.moduleName

theorem allEdited_iff (hroot : tree.moduleName ≠ a.dut) :
    AllEdited a common tree st₀ ↔ Survives a common tree st₀ := by
  constructor
  · intro h
    refine ⟨?_, ?_, ?_, fun hdut => absurd hdut hroot⟩
    · intro m t hv hm
      rcases Visited.cases hv with ⟨hp, -⟩ | ⟨q, s, hs, -, hmem, hne⟩
      · cases hp
      · exact (h q s t hs hmem hm hne).2.1.2
    · intro hm c hc hne hcm
      exact (h none tree c visited_root hc hcm hne).1 ⟨rfl, hm⟩
    · rw [← kept_iff_pairwise]
      intro m c hmem _ hc
      obtain ⟨t, hv, rfl⟩ := mem_visits.mp hmem
      rcases Visited.cases hv with ⟨hp, -⟩ | ⟨q, s, hs, hp, hin, hne⟩
      · cases hp
      · obtain rfl := Option.some.inj hp
        exact (h q s t hs hin hc.1 hne).2
  · intro h p t c hv hc hcm hne
    have hcv := Visited.instance hv hc hne
    refine ⟨?_, kept_of_pairwise h.order (mem_visits.mpr ⟨c, hcv, rfl⟩)
      ⟨hcm, h.external _ c hcv hcm⟩⟩
    rintro ⟨rfl, hm⟩
    rcases Visited.cases hv with ⟨-, rfl⟩ | ⟨q, s, -, hp, -⟩
    · exact h.root hm c hc hne hcm
    · cases hp

/-- The pass leaves an instance as it is exactly if nothing visited below it is common. -/
theorem dfs_eq_self_iff (hf : Fresh a common tree st₀) :
    (dfsUpdateModules a common tree).1 = tree ↔
      ∀ m t, Visited a tree (some m, t) → t.moduleName ∉ common := by
  constructor
  · intro h m t hv
    -- down the chain of instances, each of them unchanged
    suffices hchain : (dfsUpdateModules a common t).1 = t ∧
        ((some m).isSome = true → t.moduleName ∉ common) from hchain.2 rfl
    refine Visited.induct (motive := fun p t => (dfsUpdateModules a common t).1 = t ∧
      (p.isSome = true → t.moduleName ∉ common)) ⟨h, by simp⟩ (fun q s c hs ih hmem hne => ?_) hv
    have hmap : s.instances.map (emitted a common) = s.instances.map id := by
      rw [← dfs_instances, ih.1, List.map_id]
    have hself : emitted a common c = c := List.map_inj_left.mp hmap c hmem
    have hnot : c.moduleName ∉ common := by
      intro hm
      have hname : (emitted a common c).moduleName = emittedName a common c.moduleName :=
        emitted_moduleName c
      rw [hself, emittedName, if_pos ⟨hm, hne⟩] at hname
      exact hf.modules _ hm _ c (Visited.instance hs hmem hne) hname.symm
    rw [emitted, if_neg hne, if_neg hnot] at hself
    exact ⟨hself, fun _ => hnot⟩
  · intro h
    suffices hself : ∀ t p, Visited a tree (p, t) → (dfsUpdateModules a common t).1 = t from
      hself tree none visited_root
    intro t
    induction t using Hier.induct with
    | h t ih =>
      intro p hv
      have hmap : t.instances.map (emitted a common) = t.instances.map id := by
        refine List.map_congr_left fun c hc => ?_
        by_cases hne : c.moduleName = a.dut
        · exact if_pos hne
        · have hcv := Visited.instance hv hc hne
          rw [emitted, if_neg hne, if_neg (h _ c hcv)]
          exact ih c hc _ hcv
      rw [← dfs_instances, List.map_id] at hmap
      obtain ⟨i, m, cs⟩ := t
      rw [show (dfsUpdateModules a common (.node i m cs)).1 =
        .node i m (dfsUpdateModules a common (.node i m cs)).1.instances from rfl, hmap]
      rfl

theorem survives_of_none_below
    (h : ∀ m t, Visited a tree (some m, t) → t.moduleName ∉ common) :
    Survives a common tree st₀ := by
  refine ⟨fun m t hv hm => absurd hm (h m t hv), fun _ c hc hne => h _ c
    (Visited.instance visited_root hc hne), ?_, fun _ => h⟩
  rw [← kept_iff_pairwise]
  intro m c hmem _ hc
  obtain ⟨t, hv, rfl⟩ := mem_visits.mp hmem
  exact absurd hc.1 (h m t hv)

end Uniquify

end PerceptronSoc
