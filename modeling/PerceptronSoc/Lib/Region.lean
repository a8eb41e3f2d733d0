import Mathlib.Tactic

/-! The last region of a log. Some entries open a region and some close it; an opening
entry also abandons whatever came before it, and a closing entry outside a region means
nothing. -/

namespace Region

variable {α : Type*} (start stop : α → Bool)

/-- The suffix that begins with the last opening entry. -/
def fromLastStart : List α → Option (List α)
  | [] => none
  | x :: xs =>
    match fromLastStart xs with
    | some r => some r
    | none => if start x then some (x :: xs) else none

/-- From the last opening entry, inclusive, to the first closing entry after it,
exclusive, or to the end. -/
def last (xs : List α) : List α :=
  match fromLastStart start xs with
  | some r => r.takeWhile fun x => !stop x
  | none => []

def isOpen (xs : List α) : Bool :=
  match fromLastStart start xs with
  | some r => r.all fun x => !stop x
  | none => false

def opening (xs : List α) : Option α := xs.reverse.find? start

/-- The entry that closed the last region. -/
def closing (xs : List α) : Option α := (fromLastStart start xs).bind fun r => r.find? stop

variable {start stop}

theorem fromLastStart_snoc (xs : List α) (x : α) :
    fromLastStart start (xs ++ [x]) =
      if start x then some [x] else (fromLastStart start xs).map (· ++ [x]) := by
  induction xs with
  | nil => rfl
  | cons y ys ih =>
    rw [List.cons_append, fromLastStart, ih, fromLastStart]
    cases hx : start x with
    | true => rfl
    | false =>
      cases fromLastStart start ys with
      | some r => rfl
      | none => cases start y <;> rfl

theorem fromLastStart_eq_none {xs : List α} (h : ∀ x ∈ xs, start x = false) :
    fromLastStart start xs = none := by
  induction xs with
  | nil => rfl
  | cons y ys ih =>
    rw [fromLastStart, ih fun x hx => h x (List.mem_cons_of_mem y hx), h y List.mem_cons_self]
    rfl

theorem takeWhile_snoc (p : α → Bool) (xs : List α) (x : α) :
    (xs ++ [x]).takeWhile p = xs.takeWhile p ++ if xs.all p && p x then [x] else [] := by
  induction xs with
  | nil => cases hx : p x <;> simp [hx]
  | cons y ys ih => cases hy : p y <;> simp [hy, ih]

theorem isOpen_snoc (h : ∀ x, start x = true → stop x = false) (xs : List α) (x : α) :
    isOpen start stop (xs ++ [x]) = (start x || (isOpen start stop xs && !stop x)) := by
  unfold isOpen
  rw [fromLastStart_snoc]
  cases hx : start x with
  | true => simp [h x hx]
  | false => cases fromLastStart start xs <;> simp

theorem last_snoc (h : ∀ x, start x = true → stop x = false) (xs : List α) (x : α) :
    last start stop (xs ++ [x]) =
      if start x then [x]
      else last start stop xs ++ if isOpen start stop xs && !stop x then [x] else [] := by
  unfold last isOpen
  rw [fromLastStart_snoc]
  cases hx : start x with
  | true => simp [h x hx]
  | false =>
    cases fromLastStart start xs with
    | none => rfl
    | some r => exact takeWhile_snoc _ r x

theorem opening_snoc (xs : List α) (x : α) :
    opening start (xs ++ [x]) = if start x then some x else opening start xs := by
  unfold opening
  rw [List.reverse_append, List.reverse_singleton, List.singleton_append, List.find?_cons]
  cases start x <;> rfl

theorem closing_snoc (h : ∀ x, start x = true → stop x = false) (xs : List α) (x : α) :
    closing start stop (xs ++ [x]) =
      if start x then none
      else if isOpen start stop xs && stop x then some x else closing start stop xs := by
  unfold closing isOpen
  rw [fromLastStart_snoc]
  cases hx : start x with
  | true => simp [h x hx]
  | false =>
    cases fromLastStart start xs with
    | none => rfl
    | some r =>
      simp only [Bool.false_eq_true, if_false, Option.map_some, Option.bind_some,
        List.find?_append]
      cases hr : r.find? stop with
      | none =>
        have hall : (r.all fun y => !stop y) = true := by simpa using hr
        rw [hall]
        cases hs : stop x <;> simp [hs]
      | some y =>
        have hall : (r.all fun y => !stop y) = false := by
          simpa using ⟨y, List.mem_of_find?_eq_some hr, List.find?_some hr⟩
        rw [hall]
        rfl

theorem last_eq_nil {xs : List α} (h : ∀ x ∈ xs, start x = false) : last start stop xs = [] := by
  rw [last, fromLastStart_eq_none h]

end Region
