import Mathlib.Tactic
import Mathlib.Logic.Relation

/-! A loop over a queue: the front is visited, which changes a state and appends to the
queue. Where every visit appends what does not depend on the state, the loop is a fold
over the nodes in breadth-first order. -/

namespace Worklist

variable {α β σ : Type*}

/-- At most the given number of visits; `visit` gives the new state and what joins the
queue, or fails. -/
def run (visit : σ → α → Option (σ × List α)) : ℕ → List α → σ → Option σ
  | _, [], s => some s
  | 0, _ :: _, _ => none
  | n + 1, a :: q, s =>
    match visit s a with
    | none => none
    | some (s', next) => run visit n (q ++ next) s'

/-- The nodes as a queue visits them, each followed by its children at the end. -/
def order (kids : β → List β) : ℕ → List β → List β
  | _, [] => []
  | 0, _ :: _ => []
  | n + 1, b :: q => b :: order kids n (q ++ kids b)

theorem order_map {kids' : α → List α} {kids : β → List β} (g : β → α)
    (h : ∀ b, kids' (g b) = (kids b).map g) (n : ℕ) (q : List β) :
    order kids' n (q.map g) = (order kids n q).map g := by
  induction n generalizing q with
  | zero => cases q <;> rfl
  | succ n ih =>
    cases q with
    | nil => rfl
    | cons b q => rw [List.map_cons, order, order, List.map_cons, h, ← List.map_append, ih]

def Reach (kids : β → List β) (start : List β) (b : β) : Prop :=
  ∃ a ∈ start, Relation.ReflTransGen (fun x y => y ∈ kids x) a b

variable {kids : β → List β} {start : List β} {a b : β}

theorem Reach.of_mem (h : b ∈ start) : Reach kids start b := ⟨b, h, .refl⟩

theorem Reach.kid (h : Reach kids start a) (hb : b ∈ kids a) : Reach kids start b := by
  obtain ⟨x, hx, hxa⟩ := h
  exact ⟨x, hx, hxa.tail hb⟩

theorem reach_cons_iff {q : List β} :
    Reach kids (a :: q) b ↔ b = a ∨ Reach kids (q ++ kids a) b := by
  constructor
  · rintro ⟨x, hx, hxb⟩
    rcases List.mem_cons.mp hx with rfl | hx
    · rcases Relation.ReflTransGen.cases_head hxb with rfl | ⟨y, hy, hyb⟩
      · exact .inl rfl
      · exact .inr ⟨y, List.mem_append_right q hy, hyb⟩
    · exact .inr ⟨x, List.mem_append_left _ hx, hxb⟩
  · rintro (rfl | ⟨x, hx, hxb⟩)
    · exact .of_mem List.mem_cons_self
    · rcases List.mem_append.mp hx with hx | hx
      · exact ⟨x, List.mem_cons_of_mem a hx, hxb⟩
      · exact ⟨a, List.mem_cons_self, hxb.head hx⟩

variable {size : β → ℕ}

theorem queue_lt (hsize : ∀ b, ((kids b).map size).sum < size b) {n : ℕ} {q : List β}
    (h : ((b :: q).map size).sum ≤ n + 1) : ((q ++ kids b).map size).sum ≤ n := by
  have hb := hsize b
  simp only [List.map_cons, List.sum_cons, List.map_append, List.sum_append] at h ⊢
  omega

theorem not_queue_le_zero (hsize : ∀ b, ((kids b).map size).sum < size b) {q : List β} :
    ¬((b :: q).map size).sum ≤ 0 := by
  have hb := hsize b
  simp only [List.map_cons, List.sum_cons]
  omega

/-- With enough visits every node that can be reached is visited. -/
theorem mem_order_iff (hsize : ∀ b, ((kids b).map size).sum < size b) {n : ℕ} {q : List β}
    (hn : (q.map size).sum ≤ n) : b ∈ order kids n q ↔ Reach kids q b := by
  induction n generalizing q with
  | zero =>
    cases q with
    | nil => simp [order, Reach]
    | cons a q => exact absurd hn (not_queue_le_zero hsize)
  | succ n ih =>
    cases q with
    | nil => simp [order, Reach]
    | cons a q => rw [order, List.mem_cons, ih (queue_lt hsize hn), reach_cons_iff]

/-- The rule of the loop. `g` turns a node into what the queue holds of it; `I` speaks
about the nodes visited so far. A visit keeps `I` and appends the node's own children, so
the loop ends, and `I` holds of all nodes in their order. -/
theorem run_of_step (hsize : ∀ b, ((kids b).map size).sum < size b)
    {visit : σ → α → Option (σ × List α)} (g : β → α) (start : List β) (I : List β → σ → Prop)
    (hstep : ∀ done b s, Reach kids start b → (b ∈ start ∨ ∃ a ∈ done, b ∈ kids a) → I done s →
      ∃ s', visit s (g b) = some (s', (kids b).map g) ∧ I (done ++ [b]) s')
    {n : ℕ} {s : σ} (hn : (start.map size).sum ≤ n) (hI : I [] s) :
    ∃ s', run visit n (start.map g) s = some s' ∧ I (order kids n start) s' := by
  -- the queue only holds starting nodes and children of visited ones
  suffices hloop : ∀ n q done s, (q.map size).sum ≤ n →
      (∀ b ∈ q, Reach kids start b ∧ (b ∈ start ∨ ∃ a ∈ done, b ∈ kids a)) → I done s →
      ∃ s', run visit n (q.map g) s = some s' ∧ I (done ++ order kids n q) s' by
    simpa using hloop n start [] s hn (fun b hb => ⟨.of_mem hb, .inl hb⟩) hI
  intro n
  induction n with
  | zero =>
    intro q done s hn hq hI
    cases q with
    | nil => exact ⟨s, rfl, by simpa [order] using hI⟩
    | cons b q => exact absurd hn (not_queue_le_zero hsize)
  | succ n ih =>
    intro q done s hn hq hI
    cases q with
    | nil => exact ⟨s, rfl, by simpa [order] using hI⟩
    | cons b q =>
      obtain ⟨hreach, hfrom⟩ := hq b List.mem_cons_self
      obtain ⟨s', hv, hI'⟩ := hstep done b s hreach hfrom hI
      have hq' : ∀ c ∈ q ++ kids b,
          Reach kids start c ∧ (c ∈ start ∨ ∃ a ∈ done ++ [b], c ∈ kids a) := by
        intro c hc
        rcases List.mem_append.mp hc with hc | hc
        · obtain ⟨hc1, hc2⟩ := hq c (List.mem_cons_of_mem b hc)
          refine ⟨hc1, hc2.imp_right ?_⟩
          rintro ⟨x, hx, hxc⟩
          exact ⟨x, List.mem_append_left _ hx, hxc⟩
        · exact ⟨hreach.kid hc, .inr ⟨b, by simp, hc⟩⟩
      obtain ⟨s'', hr, hI''⟩ := ih (q ++ kids b) (done ++ [b]) s' (queue_lt hsize hn) hq' hI'
      refine ⟨s'', ?_, by simpa [order] using hI''⟩
      rw [List.map_append] at hr
      rw [List.map_cons, run, hv]
      exact hr

end Worklist
