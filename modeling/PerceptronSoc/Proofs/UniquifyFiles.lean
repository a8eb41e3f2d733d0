import PerceptronSoc.Lib.Renewal
import PerceptronSoc.Spec.Uniquify

/-! What the breadth-first pass leaves in the files. The instances it visits, and their
order, do not depend on the files; an edit of a copy is one more entry under its module,
and the next copy of the module loses the entries. -/

namespace PerceptronSoc.Uniquify

open Renewal Worklist

/-- Below an instance with the module name of its parent. -/
def kids (a : Args) (b : Option String × Hier) : List (Option String × Hier) :=
  (b.2.instances.filter fun c => c.moduleName ≠ a.dut).map fun c => (some b.2.moduleName, c)

/-- The parents' modules and the modules of the visited instances, in the order of the
visits. -/
def visits (a : Args) (tree : Hier) : List (Option String × String) :=
  (order (kids a) tree.size [(none, tree)]).map fun b => (b.1, b.2.moduleName)

/-- An instance that is not in a DUT below the root, with its parent's module. -/
abbrev Visited (a : Args) (tree : Hier) (b : Option String × Hier) : Prop :=
  Reach (kids a) [(none, tree)] b

variable {a : Args} {tree : Hier}

theorem sizes_filter_le (p : Hier → Bool) (cs : List Hier) :
    ((cs.filter p).map Hier.size).sum ≤ Hier.sizes cs := by
  induction cs with
  | nil => rfl
  | cons c cs ih =>
    rw [Hier.sizes, List.filter_cons]
    split
    · rw [List.map_cons, List.sum_cons]
      omega
    · omega

theorem kids_size (a : Args) (b : Option String × Hier) :
    ((kids a b).map fun b => b.2.size).sum < b.2.size := by
  obtain ⟨p, ⟨i, m, cs⟩⟩ := b
  have h := sizes_filter_le (fun c => c.moduleName ≠ a.dut) cs
  rw [kids, List.map_map]
  simp only [Hier.size, Hier.instances]
  exact Nat.lt_succ_of_le h

theorem mem_kids {p q : Option String} {t c : Hier} :
    (p, c) ∈ kids a (q, t) ↔ p = some t.moduleName ∧ c ∈ t.instances ∧ c.moduleName ≠ a.dut := by
  simp only [kids, List.mem_map, List.mem_filter, decide_eq_true_eq, Prod.mk.injEq]
  constructor
  · rintro ⟨d, ⟨hd, hne⟩, rfl, rfl⟩
    exact ⟨rfl, hd, hne⟩
  · rintro ⟨rfl, hc, hne⟩
    exact ⟨c, ⟨hc, hne⟩, rfl, rfl⟩

theorem mem_visits {p : Option String} {m : String} :
    (p, m) ∈ visits a tree ↔ ∃ t, Visited a tree (p, t) ∧ t.moduleName = m := by
  have hmem : ∀ b, b ∈ order (kids a) tree.size [(none, tree)] ↔ Visited a tree b := fun b =>
    mem_order_iff (kids_size a) (by simp)
  unfold visits
  rw [List.mem_map]
  constructor
  · rintro ⟨⟨q, t⟩, hb, heq⟩
    obtain ⟨rfl, rfl⟩ := Prod.mk.inj heq
    exact ⟨t, (hmem _).mp hb, rfl⟩
  · rintro ⟨t, ht, rfl⟩
    exact ⟨(p, t), (hmem _).mpr ht, rfl⟩

@[elab_as_elim]
theorem Visited.induct {motive : Option String → Hier → Prop} (root : motive none tree)
    (child : ∀ q s c, Visited a tree (q, s) → motive q s → c ∈ s.instances → c.moduleName ≠ a.dut →
      motive (some s.moduleName) c)
    {p : Option String} {t : Hier} (h : Visited a tree (p, t)) : motive p t := by
  obtain ⟨x, hx, hreach⟩ := h
  rw [List.mem_singleton] at hx
  subst hx
  suffices hall : ∀ b, Relation.ReflTransGen (fun x y => y ∈ kids a x) (none, tree) b →
      motive b.1 b.2 from hall _ hreach
  intro b hb
  induction hb with
  | refl => exact root
  | @tail b c hb hc ih =>
    obtain ⟨q, s⟩ := b
    obtain ⟨p, c⟩ := c
    obtain ⟨rfl, hmem, hne⟩ := mem_kids.mp hc
    exact child q s c ⟨_, by simp, hb⟩ ih hmem hne

/-- The root is the first visit; every other instance is below one that is visited. -/
theorem Visited.cases {p : Option String} {t : Hier} (h : Visited a tree (p, t)) :
    p = none ∧ t = tree ∨
    ∃ q s, Visited a tree (q, s) ∧ p = some s.moduleName ∧ t ∈ s.instances ∧
      t.moduleName ≠ a.dut := by
  refine Visited.induct ?_ (fun q s c hs _ hc hne => ?_) h
  · exact .inl ⟨rfl, rfl⟩
  · exact .inr ⟨q, s, hs, rfl, hc, hne⟩

theorem visited_root : Visited a tree (none, tree) := .of_mem (by simp)

theorem Visited.instance {q : Option String} {s c : Hier} (h : Visited a tree (q, s))
    (hc : c ∈ s.instances) (hne : c.moduleName ≠ a.dut) :
    Visited a tree (some s.moduleName, c) :=
  Reach.kid h (mem_kids.mpr ⟨rfl, hc, hne⟩)

def Shared (common : List String) (st : State) (m : String) : Prop :=
  m ∈ common ∧ ∃ f, st.moduleFile m = some f

/-- One module a file, every mapped file is there, an instance of an external module has no
instances, and a file instantiates what the hierarchy has below every instance of its
module. -/
structure Design (a : Args) (tree : Hier) (st : State) : Prop where
  distinct : ∀ m m' f, st.moduleFile m = some f → st.moduleFile m' = some f → m = m'
  present : ∀ m f, st.moduleFile m = some f → ∃ v, st.files f = some v
  leaves : ∀ p t, Visited a tree (p, t) → st.moduleFile t.moduleName = none → t.instances = []
  agrees : ∀ p t f v, Visited a tree (p, t) → st.moduleFile t.moduleName = some f →
    st.files f = some v → v.instantiates.Perm (t.instances.map Hier.moduleName)

/-- What has instances has a file. -/
theorem Design.file_of_instance {a : Args} {tree : Hier} {st : State} (hd : Design a tree st)
    {p : Option String} {t c : Hier} (hv : Visited a tree (p, t)) (hc : c ∈ t.instances) :
    ∃ f, st.moduleFile t.moduleName = some f := by
  cases hfile : st.moduleFile t.moduleName with
  | none => simp [hd.leaves p t hv hfile] at hc
  | some f => exact ⟨f, rfl⟩

/-- No name that the script makes up is in use. -/
structure Fresh (a : Args) (common : List String) (tree : Hier) (st : State) : Prop where
  dut : ∀ m ∈ common, a.uniquified m ≠ a.dut
  modules : ∀ m ∈ common, ∀ p t, Visited a tree (p, t) → a.uniquified m ≠ t.moduleName
  files : ∀ m ∈ common, ∀ f, st.moduleFile m = some f → ∀ m' g, st.moduleFile m' = some g →
    a.copyName f ≠ g

variable {common : List String} {st₀ : State}

theorem uniquified_inj {m m' : String} : a.uniquified m = a.uniquified m' ↔ m = m' := by
  unfold Args.uniquified
  rw [String.append_left_inj, String.append_left_inj]

theorem copyName_inj {f g : FileName} : a.copyName f = a.copyName g ↔ f = g := by
  obtain ⟨s, e⟩ := f
  obtain ⟨s', e'⟩ := g
  simp [Args.copyName, uniquified_inj]

/-- Also the DUT's own instances have old names. -/
theorem Fresh.instance (hf : Fresh a common tree st₀) {m : String} (hm : m ∈ common)
    {p : Option String} {t c : Hier} (h : Visited a tree (p, t)) (hc : c ∈ t.instances) :
    a.uniquified m ≠ c.moduleName := by
  by_cases hd : c.moduleName = a.dut
  · rw [hd]
    exact hf.dut m hm
  · exact hf.modules m hm _ c (h.instance hc hd)

def workFile (a : Args) (common : List String) (m : String) (f : FileName) : FileName :=
  if m ∈ common then a.copyName f else f

open Classical in
noncomputable def edit (a : Args) (e : String → Prop) (r : String) : String :=
  if e r then a.uniquified r else r

/-- The files after edits `ed m c`, for the child `c` in the file of `m`, of the modules
copied so far. -/
structure Contents (a : Args) (common : List String) (st₀ : State) (ed : String → String → Prop)
    (seen : String → Prop) (files : FileName → Option VerilogFile) : Prop where
  originals : ∀ m f, m ∈ common → st₀.moduleFile m = some f → files f = st₀.files f
  work : ∀ m f v, st₀.moduleFile m = some f → st₀.files f = some v → (m ∈ common → seen m) →
    ∃ d, files (workFile a common m f) = some ⟨d, v.instantiates.map (edit a (ed m))⟩
  shared : ∀ m c, ed m c → Shared common st₀ c

theorem workFile_inj (hd : Design a tree st₀) (hf : Fresh a common tree st₀) {m m' : String}
    {f f' : FileName} (h : st₀.moduleFile m = some f) (h' : st₀.moduleFile m' = some f')
    (heq : workFile a common m f = workFile a common m' f') : m = m' := by
  unfold workFile at heq
  split at heq
  · next hm =>
    split at heq
    · exact hd.distinct m m' f h (copyName_inj.mp heq ▸ h')
    · exact absurd heq (hf.files m hm f h m' f' h')
  · split at heq
    · next hm' => exact absurd heq.symm (hf.files m' hm' f' h' m f h)
    · exact hd.distinct m m' f h (heq ▸ h')

theorem workFile_ne (hd : Design a tree st₀) (hf : Fresh a common tree st₀) {m m' : String}
    {f f' : FileName} (hm : m ∈ common) (h : st₀.moduleFile m = some f)
    (h' : st₀.moduleFile m' = some f') : f ≠ workFile a common m' f' := by
  unfold workFile
  split
  · next hm' => exact (hf.files m' hm' f' h' m f h).symm
  · next hm' =>
    rintro rfl
    exact hm' (hd.distinct m m' f h h' ▸ hm)

@[simp] theorem map_edit_none (l : List String) : l.map (edit a fun _ => False) = l := by
  have hid : edit a (fun _ => False) = id := by
    funext r
    simp [edit]
  rw [hid, List.map_id]

theorem edit_rename {e : String → Prop} {m r : String}
    (hm : ∀ r, e r → a.uniquified r ≠ m) :
    (if edit a e r = m then a.uniquified m else edit a e r) =
      edit a (fun c => e c ∨ c = m) r := by
  unfold edit
  by_cases he : e r
  · simp [he, hm r he]
  · simp only [he, if_false, false_or]
    split
    · next h => rw [h]
    · rfl

/-- A new copy has lost the edits of the old one. -/
theorem Contents.copy (hd : Design a tree st₀) (hf : Fresh a common tree st₀)
    {ed : String → String → Prop} {seen : String → Prop} {files : FileName → Option VerilogFile}
    (hc : Contents a common st₀ ed seen files) {m d : String} {f : FileName} {v : VerilogFile}
    (hm : m ∈ common) (hfile : st₀.moduleFile m = some f) (hv : st₀.files f = some v) :
    Contents a common st₀ (fun x c => ed x c ∧ x ≠ m) (fun x => seen x ∨ x = m)
      (Function.update files (a.copyName f) (some ⟨d, v.instantiates⟩)) := by
  have hwork : workFile a common m f = a.copyName f := if_pos hm
  refine ⟨?_, ?_, fun x c h => hc.shared x c h.1⟩
  · intro x g hx hg
    rw [Function.update_of_ne, hc.originals x g hx hg]
    rw [← hwork]
    exact workFile_ne hd hf hx hg hfile
  · intro x g w hg hw hseen
    by_cases hx : x = m
    · subst hx
      obtain rfl : f = g := Option.some.inj (hfile.symm.trans hg)
      obtain rfl : v = w := Option.some.inj (hv.symm.trans hw)
      refine ⟨d, ?_⟩
      rw [hwork, Function.update_self]
      simp
    · have hne : workFile a common x g ≠ a.copyName f := by
        rw [← hwork]
        exact fun h => hx (workFile_inj hd hf hg hfile h)
      rw [Function.update_of_ne hne]
      simpa [hx] using hc.work x g w hg hw fun h => (hseen h).resolve_right hx

theorem Contents.update (hd : Design a tree st₀) (hf : Fresh a common tree st₀)
    {ed : String → String → Prop} {seen : String → Prop} {files : FileName → Option VerilogFile}
    (hc : Contents a common st₀ ed seen files) {p m : String} {f : FileName} {v : VerilogFile}
    (hm : Shared common st₀ m) (hold : ∀ r ∈ common, a.uniquified r ≠ m)
    (hfile : st₀.moduleFile p = some f)
    (hv : files (workFile a common p f) = some v) :
    Contents a common st₀ (fun x c => ed x c ∨ x = p ∧ c = m) seen
      (Function.update files (workFile a common p f) (some (v.rename m (a.uniquified m)))) := by
  refine ⟨?_, ?_, ?_⟩
  · intro x g hx hg
    rw [Function.update_of_ne (workFile_ne hd hf hx hg hfile), hc.originals x g hx hg]
  · intro x g w hg hw hxseen
    by_cases hx : x = p
    · subst hx
      obtain rfl : f = g := Option.some.inj (hfile.symm.trans hg)
      obtain ⟨d, hwork⟩ := hc.work x f w hg hw hxseen
      obtain rfl : v = _ := Option.some.inj (hv.symm.trans hwork)
      refine ⟨d, ?_⟩
      rw [Function.update_self]
      simp only [VerilogFile.rename, List.map_map, true_and]
      congr 3
      funext r
      exact edit_rename fun r he => hold r (hc.shared x r he).1
    · rw [Function.update_of_ne fun h => hx (workFile_inj hd hf hg hfile h)]
      simpa [hx] using hc.work x g w hg hw hxseen
  · rintro x c (h | ⟨-, rfl⟩)
    · exact hc.shared x c h
    · exact hm

theorem Contents.congr {ed ed' : String → String → Prop} {seen seen' : String → Prop}
    {files : FileName → Option VerilogFile} (hc : Contents a common st₀ ed seen files)
    (hed : ∀ m c, ed' m c ↔ ed m c) (hseen : ∀ m f, m ∈ common → st₀.moduleFile m = some f →
      seen' m → seen m) :
    Contents a common st₀ ed' seen' files := by
  obtain rfl : ed' = ed := funext fun m => funext fun c => propext (hed m c)
  exact ⟨hc.originals, fun m f v hf hv h => hc.work m f v hf hv fun hm => hseen m f hm hf (h hm),
    hc.shared⟩

/-- The name by which the instances of a visited module know their parent. -/
def newName (a : Args) (common : List String) (st : State) (m : String) : String :=
  if m ∈ common ∧ (st.moduleFile m).isSome then a.uniquified m else m

theorem newName_of_shared {m : String} (h : Shared common st₀ m) :
    newName a common st₀ m = a.uniquified m := by
  obtain ⟨hm, f, hf⟩ := h
  exact if_pos ⟨hm, by simp [hf]⟩

theorem newName_of_not_shared {m : String} (h : ¬Shared common st₀ m) :
    newName a common st₀ m = m := by
  apply if_neg
  rintro ⟨hm, hs⟩
  exact h ⟨hm, Option.isSome_iff_exists.mp hs⟩

theorem newName_inj (hf : Fresh a common tree st₀) {p p' : Option String} {t t' : Hier}
    (h : Visited a tree (p, t)) (h' : Visited a tree (p', t'))
    (heq : newName a common st₀ t.moduleName = newName a common st₀ t'.moduleName) :
    t.moduleName = t'.moduleName := by
  by_cases hs : Shared common st₀ t.moduleName
  · by_cases hs' : Shared common st₀ t'.moduleName
    · rw [newName_of_shared hs, newName_of_shared hs'] at heq
      exact uniquified_inj.mp heq
    · rw [newName_of_shared hs, newName_of_not_shared hs'] at heq
      exact absurd heq (hf.modules _ hs.1 p' t' h')
  · by_cases hs' : Shared common st₀ t'.moduleName
    · rw [newName_of_not_shared hs, newName_of_shared hs'] at heq
      exact absurd heq.symm (hf.modules _ hs'.1 p t h)
    · rwa [newName_of_not_shared hs, newName_of_not_shared hs'] at heq

structure Tracks (a : Args) (common : List String) (tree : Hier) (st₀ : State)
    (vs : List (Option String × String)) (st : State) : Prop where
  contents : Contents a common st₀ (Kept (Shared common st₀) vs) (fun m => ∃ p, (p, m) ∈ vs)
    st.files
  copies : ∀ m f p, m ∈ common → st₀.moduleFile m = some f → (p, m) ∈ vs →
    st.moduleFile (a.uniquified m) = some (a.copyName f)
  others : ∀ x, (∀ m ∈ common, a.uniquified m ≠ x) → st.moduleFile x = st₀.moduleFile x
  updated : ∀ p t c, Visited a tree (p, t) →
    ((newName a common st₀ t.moduleName, c) ∈ st.updated ↔
      (some t.moduleName, c) ∈ vs ∧ Shared common st₀ c)

theorem tracks_nil : Tracks a common tree st₀ [] { st₀ with updated := [] } := by
  refine ⟨⟨fun _ _ _ _ => rfl, ?_, fun m c h => absurd h not_kept_nil⟩, by simp, fun _ _ => rfl,
    by simp⟩
  intro m f v hf hv hseen
  have hm : m ∉ common := fun h => by simpa using hseen h
  refine ⟨v.declares, ?_⟩
  rw [workFile, if_neg hm]
  have hnone : Kept (Shared common st₀) [] m = fun _ => False :=
    funext fun c => eq_false not_kept_nil
  rw [hnone, map_edit_none]
  exact hv

variable {vs : List (Option String × String)} {st : State} {p : Option String} {t : Hier}

theorem Tracks.file (ht : Tracks a common tree st₀ vs st) (hf : Fresh a common tree st₀)
    (hv : Visited a tree (p, t)) : st.moduleFile t.moduleName = st₀.moduleFile t.moduleName :=
  ht.others _ fun m hm => hf.modules m hm p t hv

/-- A module that gets no copy is only passed. -/
theorem Tracks.skip (ht : Tracks a common tree st₀ vs st) {m : String}
    (hm : ¬Shared common st₀ m) : Tracks a common tree st₀ (vs ++ [(p, m)]) st := by
  have hold : ∀ q x, Shared common st₀ x → (q, x) ∈ vs ++ [(p, m)] → (q, x) ∈ vs := by
    intro q x hx hmem
    rcases mem_snoc.mp hmem with h | ⟨-, rfl⟩
    · exact h
    · exact absurd hx hm
  refine ⟨ht.contents.congr ?_ ?_, ?_, ht.others, ?_⟩
  · intro x c
    rw [kept_snoc]
    constructor
    · rintro (h | ⟨-, rfl, hc, -⟩)
      · exact h.1
      · exact absurd hc hm
    · intro h
      refine .inl ⟨h, ?_⟩
      rintro ⟨hx, rfl⟩
      exact hm hx
  · rintro x f hx hf ⟨q, hq⟩
    exact ⟨q, hold q x ⟨hx, f, hf⟩ hq⟩
  · intro x f q hx hf hq
    exact ht.copies x f q hx hf (hold q x ⟨hx, f, hf⟩ hq)
  · intro q s c hs
    rw [ht.updated q s c hs]
    constructor
    · rintro ⟨h, hc⟩
      exact ⟨List.mem_append_left _ h, hc⟩
    · rintro ⟨h, hc⟩
      exact ⟨hold _ c hc h, hc⟩

/-- The parent of the next visit: visited before, and with a file of its own. -/
def ParentSeen (a : Args) (tree : Hier) (st₀ : State) (vs : List (Option String × String))
    (p : Option String) : Prop :=
  ∀ m, p = some m → ∃ q s f, Visited a tree (q, s) ∧ s.moduleName = m ∧
    (∃ q, (q, m) ∈ vs) ∧ st₀.moduleFile m = some f

theorem Tracks.workFile (ht : Tracks a common tree st₀ vs st) (hf : Fresh a common tree st₀)
    {f : FileName} (hv : Visited a tree (p, t)) (hfile : st₀.moduleFile t.moduleName = some f)
    (hmem : t.moduleName ∈ common → ∃ q, (q, t.moduleName) ∈ vs) :
    st.moduleFile (newName a common st₀ t.moduleName) =
      some (workFile a common t.moduleName f) := by
  unfold Uniquify.workFile
  by_cases hm : t.moduleName ∈ common
  · obtain ⟨q, hq⟩ := hmem hm
    rw [if_pos hm, newName_of_shared ⟨hm, f, hfile⟩]
    exact ht.copies _ f q hm hfile hq
  · rw [if_neg hm, newName_of_not_shared fun h => hm h.1, ht.file hf hv, hfile]

theorem updateParent_some {parent mod : String} {file : FileName} {v : VerilogFile}
    (hnot : (parent, mod) ∉ st.updated) (hfile : st.moduleFile parent = some file)
    (hv : st.files file = some v) :
    updateParent a st mod (some parent) = some { st with
      files := Function.update st.files file (some (v.rename mod (a.uniquified mod)))
      updated := (parent, mod) :: st.updated } := by
  simp only [updateParent, if_neg hnot, hfile, hv]

/-- With the new copy in place, its parent's file is edited unless it has been. -/
theorem updateParent_contents (hd : Design a tree st₀) (hf : Fresh a common tree st₀)
    (ht : Tracks a common tree st₀ vs st) (hv : Visited a tree (p, t))
    (hp : ParentSeen a tree st₀ vs p) (hm : Shared common st₀ t.moduleName)
    {files : FileName → Option VerilogFile}
    (hc : Contents a common st₀ (fun x c => Kept (Shared common st₀) vs x c ∧ x ≠ t.moduleName)
      (fun x => (∃ q, (q, x) ∈ vs) ∨ x = t.moduleName) files) :
    ∃ st', updateParent a { st with files := files } t.moduleName (p.map (newName a common st₀)) =
        some st' ∧
      st'.moduleFile = st.moduleFile ∧
      Contents a common st₀ (Kept (Shared common st₀) (vs ++ [(p, t.moduleName)]))
        (fun x => ∃ q, (q, x) ∈ vs ++ [(p, t.moduleName)]) st'.files ∧
      ∀ q s c, Visited a tree (q, s) → ((newName a common st₀ s.moduleName, c) ∈ st'.updated ↔
        (some s.moduleName, c) ∈ vs ++ [(p, t.moduleName)] ∧ Shared common st₀ c) := by
  have hseen : ∀ x f, x ∈ common → st₀.moduleFile x = some f →
      (∃ q, (q, x) ∈ vs ++ [(p, t.moduleName)]) → (∃ q, (q, x) ∈ vs) ∨ x = t.moduleName := by
    rintro x f - - ⟨q, hq⟩
    rcases mem_snoc.mp hq with hq | ⟨-, hq⟩
    · exact .inl ⟨q, hq⟩
    · exact .inr hq
  cases p with
  | none =>
    refine ⟨_, rfl, rfl, hc.congr (fun x c => ?_) hseen, fun q s c hs => ?_⟩
    · rw [kept_snoc_member hm]
      simp
    · simp [ht.updated q s c hs]
  | some m =>
    obtain ⟨q₀, s₀, f, hs₀, rfl, hmem, hfile⟩ := hp m rfl
    have hiff := ht.updated q₀ s₀ t.moduleName hs₀
    by_cases hdone : (newName a common st₀ s₀.moduleName, t.moduleName) ∈ st.updated
    · have hin := (hiff.mp hdone).1
      refine ⟨{ st with files := files }, if_pos hdone, rfl, hc.congr (fun x c => ?_) hseen,
        fun q s c hs => ?_⟩
      · rw [kept_snoc_member hm]
        refine or_iff_left ?_
        rintro ⟨hx, rfl, hnot⟩
        obtain rfl := Option.some.inj hx
        exact hnot hin
      · rw [ht.updated q s c hs, mem_snoc]
        refine and_congr_left fun _ => (or_iff_left_of_imp ?_).symm
        rintro ⟨hx, rfl⟩
        exact hx ▸ hin
    · have hnot : (some s₀.moduleName, t.moduleName) ∉ vs := fun h => hdone (hiff.mpr ⟨h, hm⟩)
      obtain ⟨v₀, hv₀⟩ := hd.present _ f hfile
      obtain ⟨d, hwork⟩ := hc.work _ f v₀ hfile hv₀ fun _ => .inl hmem
      have hmod := ht.workFile hf hs₀ hfile fun _ => hmem
      have hup := hc.update hd hf hm (fun r hr => hf.modules r hr _ t hv) hfile hwork
      refine ⟨_, updateParent_some hdone hmod hwork, rfl, hup.congr (fun x c => ?_) hseen,
        fun q s c hs => ?_⟩
      · rw [kept_snoc_member hm]
        refine or_congr_right ⟨?_, ?_⟩
        · rintro ⟨hx, rfl, -⟩
          exact ⟨(Option.some.inj hx).symm, rfl⟩
        · rintro ⟨rfl, rfl⟩
          exact ⟨rfl, rfl, hnot⟩
      · rw [List.mem_cons, Prod.mk.injEq, ht.updated q s c hs, mem_snoc]
        constructor
        · rintro (⟨hx, rfl⟩ | ⟨h, hcs⟩)
          · exact ⟨.inr ⟨congrArg some (newName_inj hf hs hs₀ hx), rfl⟩, hm⟩
          · exact ⟨.inl h, hcs⟩
        · rintro ⟨h | ⟨hx, rfl⟩, hcs⟩
          · exact .inr ⟨h, hcs⟩
          · exact .inl ⟨by rw [Option.some.inj hx], rfl⟩

theorem uniquifyCommon_tracks (hd : Design a tree st₀) (hf : Fresh a common tree st₀)
    (ht : Tracks a common tree st₀ vs st) (hv : Visited a tree (p, t))
    (hp : ParentSeen a tree st₀ vs p) {f : FileName} (hm : t.moduleName ∈ common)
    (hfile : st₀.moduleFile t.moduleName = some f) :
    ∃ st', uniquifyCommon a st t.moduleName f (p.map (newName a common st₀)) =
        (a.uniquified t.moduleName, st') ∧
      Tracks a common tree st₀ (vs ++ [(p, t.moduleName)]) st' := by
  obtain ⟨v, hvf⟩ := hd.present _ f hfile
  have hcur : st.files f = some v := (ht.contents.originals _ f hm hfile).trans hvf
  have hcopy := ht.contents.copy hd hf
    (d := if v.declares = f.stem then a.uniquified f.stem else v.declares) hm hfile hvf
  obtain ⟨st', hup, hmod, hcont, hupd⟩ :=
    updateParent_contents hd hf ht hv hp ⟨hm, f, hfile⟩ hcopy
  refine ⟨{ st' with
    moduleFile := Function.update st'.moduleFile (a.uniquified t.moduleName)
      (some (a.copyName f)) }, ?_, hcont, ?_, ?_, hupd⟩
  · simp only [uniquifyCommon, generateCopy, hcur, hup]
  · intro x g q hx hg hq
    by_cases hxm : x = t.moduleName
    · subst hxm
      obtain rfl : f = g := Option.some.inj (hfile.symm.trans hg)
      exact Function.update_self _ _ _
    · have hold : (q, x) ∈ vs := by
        rcases mem_snoc.mp hq with h | ⟨-, h⟩
        · exact h
        · exact absurd h hxm
      dsimp only
      rw [Function.update_of_ne fun h => hxm (uniquified_inj.mp h), hmod]
      exact ht.copies x g q hx hg hold
  · intro x hx
    dsimp only
    rw [Function.update_of_ne (hx _ hm).symm, hmod]
    exact ht.others x hx

def queued (a : Args) (common : List String) (st : State) (b : Option String × Hier) :
    Hier × Option String :=
  (b.2, b.1.map (newName a common st))

theorem kids_queued (p : Option String) (t : Hier) :
    (kids a (p, t)).map (queued a common st₀) =
      (t.instances.filter fun c => c.moduleName ≠ a.dut).map fun c =>
        (c, some (newName a common st₀ t.moduleName)) := by
  rw [kids, List.map_map]
  rfl

theorem visit_tracks (hd : Design a tree st₀) (hf : Fresh a common tree st₀)
    (ht : Tracks a common tree st₀ vs st) (hv : Visited a tree (p, t))
    (hp : ParentSeen a tree st₀ vs p) :
    ∃ st', visit a common st (queued a common st₀ (p, t)) =
        some (st', (kids a (p, t)).map (queued a common st₀)) ∧
      Tracks a common tree st₀ (vs ++ [(p, t.moduleName)]) st' := by
  simp only [visit, queued, ht.file hf hv, kids_queued]
  cases hfile : st₀.moduleFile t.moduleName with
  | none =>
    -- an external module: no copy and nothing below
    have hs : ¬Shared common st₀ t.moduleName := fun ⟨_, f, h⟩ => by simp [hfile] at h
    have hleaf := hd.leaves p t hv hfile
    exact ⟨st, by simp [hleaf], ht.skip hs⟩
  | some f =>
    by_cases hm : t.moduleName ∈ common
    · obtain ⟨st', he, ht'⟩ := uniquifyCommon_tracks hd hf ht hv hp hm hfile
      refine ⟨st', ?_, ht'⟩
      simp only [if_pos hm, he, newName_of_shared ⟨hm, f, hfile⟩]
    · have hs : ¬Shared common st₀ t.moduleName := fun h => hm h.1
      refine ⟨st, ?_, ht.skip hs⟩
      simp only [hm, if_false, newName_of_not_shared hs]

/-- The breadth-first pass ends, and what it leaves is told by the order of its visits
alone. -/
theorem bfsUniquifyModules_tracks (hd : Design a tree st₀) (hf : Fresh a common tree st₀) :
    ∃ st, bfsUniquifyModules a common tree st₀ = some st ∧
      Tracks a common tree st₀ (visits a tree) st := by
  refine run_of_step (n := tree.size) (kids_size a) (queued a common st₀) [(none, tree)]
    (fun done st => Tracks a common tree st₀ (done.map fun b => (b.1, b.2.moduleName)) st) ?_
    (by simp) tracks_nil
  rintro done ⟨p, t⟩ st hv hfrom ht
  have hp : ParentSeen a tree st₀ (done.map fun b => (b.1, b.2.moduleName)) p := by
    intro m hpm
    subst hpm
    rcases Visited.cases hv with ⟨h, -⟩ | ⟨q, s, hs, hpm, hmem, -⟩
    · cases h
    · obtain rfl := Option.some.inj hpm
      obtain ⟨f, hfile⟩ := hd.file_of_instance hs hmem
      refine ⟨q, s, f, hs, rfl, ?_, hfile⟩
      rcases hfrom with h | ⟨⟨q', s'⟩, hs', hkid⟩
      · simp at h
      · obtain ⟨hname, -, -⟩ := mem_kids.mp hkid
        exact ⟨q', List.mem_map.mpr ⟨(q', s'), hs', by simp [Option.some.inj hname]⟩⟩
  obtain ⟨st', he, ht'⟩ := visit_tracks hd hf ht hv hp
  exact ⟨st', he, by simpa using ht'⟩

end PerceptronSoc.Uniquify
