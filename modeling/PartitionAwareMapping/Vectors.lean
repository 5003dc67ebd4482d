-- The vectors of ABC that the partition code fills: a `Vec_Int_t` of ids is a
-- list, and a `Vec_Vec_t` a list of levels. A unique push never adds an id
-- twice, and a push past the last level first adds empty levels.
import Mathlib.Data.List.Nodup
import Mathlib.Data.List.GetD

namespace abc_partition.vectors

/-! ## The pure model -/

/-- `Vec_IntPushUnique`: push `e` unless the vector holds it already. -/
def vecIntPushUnique (v : List Nat) (e : Nat) : List Nat :=
  if e ∈ v then v else v ++ [e]

/-- `Vec_IntFind`: the first position of `e`, or `-1`. -/
def vecIntFind (v : List Nat) (e : Nat) : Int :=
  match v.indexOf? e with
  | some i => i
  | none => -1

/-- `Vec_VecStart`: `n` empty levels. -/
def vecVecStart {α : Type} (n : Nat) : List (List α) := List.replicate n []

/-- The levels of `p` grown to at least `n`, the new ones empty, as `Vec_VecPush`
and `Vec_VecPushUniqueInt` grow a vector before they push. -/
def vecVecGrow {α : Type} (p : List (List α)) (n : Nat) : List (List α) :=
  p ++ List.replicate (n - p.length) []

/-- `Vec_VecEntry`, read as a level; a level past the end reads as empty. -/
def vecVecEntry {α : Type} (p : List (List α)) (i : Nat) : List α := p.getD i []

/-- `Vec_VecPush`: push `e` at level `level`. -/
def vecVecPush {α : Type} (p : List (List α)) (level : Nat) (e : α) : List (List α) :=
  (vecVecGrow p (level + 1)).modify (· ++ [e]) level

/-- `Vec_VecPushUniqueInt`: push `e` at level `level` unless that level holds it. -/
def vecVecPushUniqueInt (p : List (List Nat)) (level : Nat) (e : Nat) : List (List Nat) :=
  (vecVecGrow p (level + 1)).modify (vecIntPushUnique · e) level

/-! ## One vector -/

@[simp]
theorem mem_vecIntPushUnique (v : List Nat) (e x : Nat) :
    x ∈ vecIntPushUnique v e ↔ x ∈ v ∨ x = e := by
  unfold vecIntPushUnique
  split
  · rename_i h; constructor
    · exact Or.inl
    · rintro (hx | rfl) <;> assumption
  · simp

theorem nodup_vecIntPushUnique {v : List Nat} (e : Nat) (h : v.Nodup) :
    (vecIntPushUnique v e).Nodup := by
  unfold vecIntPushUnique
  split
  · exact h
  · exact h.append (List.nodup_singleton e) (by simpa)

theorem vecIntFind_ne_iff (v : List Nat) (e : Nat) : vecIntFind v e ≠ -1 ↔ e ∈ v := by
  unfold vecIntFind
  split
  · rename_i i hi
    refine ⟨fun _ => ?_, fun _ => by omega⟩
    by_contra hn
    rw [List.indexOf?_eq_none_iff.mpr (fun x hx => by simp; rintro rfl; exact hn hx)] at hi
    cases hi
  · rename_i hi
    simpa using List.indexOf?_eq_none_iff.mp hi e

/-! ## Levels -/

@[simp]
theorem vecVecEntry_start {α : Type} (n i : Nat) : vecVecEntry (vecVecStart (α := α) n) i = [] := by
  simp only [vecVecEntry, vecVecStart, List.getD_eq_getElem?_getD, List.getElem?_replicate]
  split <;> rfl

@[simp]
theorem length_vecVecStart {α : Type} (n : Nat) : (vecVecStart (α := α) n).length = n := by
  simp [vecVecStart]

theorem vecVecEntry_grow {α : Type} (p : List (List α)) (n i : Nat) :
    vecVecEntry (vecVecGrow p n) i = vecVecEntry p i := by
  unfold vecVecEntry vecVecGrow
  rcases Nat.lt_or_ge i p.length with h | h
  · exact List.getD_append _ _ _ _ h
  · rw [List.getD_append_right _ _ _ _ h, List.getD_eq_default _ _ h]
    simp [List.getD_eq_getElem?_getD, List.getElem?_replicate]
    split <;> rfl

theorem length_vecVecGrow {α : Type} (p : List (List α)) (n : Nat) :
    (vecVecGrow p n).length = max p.length n := by
  simp [vecVecGrow]; omega

/-- Modifying one level of a vector that reaches it. -/
theorem vecVecEntry_modify {α : Type} (f : List α → List α) (p : List (List α)) (l q : Nat)
    (hl : l < p.length) :
    vecVecEntry (p.modify f l) q = if q = l then f (vecVecEntry p q) else vecVecEntry p q := by
  unfold vecVecEntry
  simp only [List.getD_eq_getElem?_getD, List.getElem?_modify]
  by_cases hq : q = l
  · subst hq; simp [List.getElem?_eq_getElem hl]
  · simp [Ne.symm hq, hq]

@[simp]
theorem vecVecEntry_push {α : Type} (p : List (List α)) (l q : Nat) (e : α) :
    vecVecEntry (vecVecPush p l e) q =
      if q = l then vecVecEntry p q ++ [e] else vecVecEntry p q := by
  unfold vecVecPush
  rw [vecVecEntry_modify _ _ _ _ (by rw [length_vecVecGrow]; omega), vecVecEntry_grow]

theorem length_vecVecPush {α : Type} (p : List (List α)) (l : Nat) (e : α) :
    (vecVecPush p l e).length = max p.length (l + 1) := by
  simp [vecVecPush, length_vecVecGrow]

@[simp]
theorem vecVecEntry_pushUniqueInt (p : List (List Nat)) (l q e : Nat) :
    vecVecEntry (vecVecPushUniqueInt p l e) q =
      if q = l then vecIntPushUnique (vecVecEntry p q) e else vecVecEntry p q := by
  unfold vecVecPushUniqueInt
  rw [vecVecEntry_modify _ _ _ _ (by rw [length_vecVecGrow]; omega), vecVecEntry_grow]

theorem mem_vecVecEntry_pushUniqueInt (p : List (List Nat)) (l q e x : Nat) :
    x ∈ vecVecEntry (vecVecPushUniqueInt p l e) q ↔ x ∈ vecVecEntry p q ∨ (q = l ∧ x = e) := by
  rw [vecVecEntry_pushUniqueInt]
  by_cases hq : q = l <;> simp [hq]

/-- Every level of the vector is free of duplicates. -/
def NodupLevels (p : List (List Nat)) : Prop := ∀ q, (vecVecEntry p q).Nodup

theorem nodupLevels_start (n : Nat) : NodupLevels (vecVecStart n) := fun q => by
  rw [vecVecEntry_start]; exact List.nodup_nil

theorem nodupLevels_pushUniqueInt {p : List (List Nat)} (h : NodupLevels p) (l e : Nat) :
    NodupLevels (vecVecPushUniqueInt p l e) := fun q => by
  rw [vecVecEntry_pushUniqueInt]
  split
  · exact nodup_vecIntPushUnique e (h q)
  · exact h q

theorem length_vecVecPushUniqueInt (p : List (List Nat)) (l e : Nat) :
    (vecVecPushUniqueInt p l e).length = max p.length (l + 1) := by
  simp [vecVecPushUniqueInt, length_vecVecGrow]

/-! ## Steps that can fail -/

@[simp]
theorem ok_bind {α β ε : Type} (a : α) (f : α → Except ε β) : (Except.ok a >>= f) = f a := rfl

@[simp]
theorem error_bind {α β ε : Type} (e : ε) (f : α → Except ε β) :
    (Except.error e >>= f) = Except.error e := rfl

theorem bind_eq_ok {α β ε : Type} {x : Except ε α} {f : α → Except ε β} {b : β} :
    x >>= f = .ok b ↔ ∃ a, x = .ok a ∧ f a = .ok b := by
  cases x <;> simp

theorem bind_eq_error {α β ε : Type} {x : Except ε α} {f : α → Except ε β} {e : ε} :
    x >>= f = .error e ↔ x = .error e ∨ ∃ a, x = .ok a ∧ f a = .error e := by
  cases x <;> simp

/-- What holds of the steps done so far holds after a fold of steps that can fail, when each
step that succeeds keeps it. -/
theorem foldlM_invariant {α β ε : Type} (f : β → α → Except ε β) (R : List α → β → Prop)
    (L : List α) (step : ∀ done x d d', done ++ [x] <+: L → R done d → f d x = .ok d' →
      R (done ++ [x]) d') :
    ∀ (l done : List α) (d d' : β), done ++ l = L → R done d → l.foldlM f d = .ok d' → R L d'
  | [], done, d, d', hL, h, he => by cases he; simpa [← hL] using h
  | x :: l, done, d, d', hL, h, he => by
    rw [List.foldlM_cons] at he
    rcases hx : f d x with e | d1
    · rw [hx] at he; cases he
    · rw [hx, ok_bind] at he
      have hp : done ++ [x] <+: L := ⟨l, by simp [← hL]⟩
      exact foldlM_invariant f R L step l (done ++ [x]) d1 d' (by simp [← hL])
        (step done x d d1 hp h hx) he

/-- A fold of steps that can fail succeeds when every step from a state that keeps `Q`
succeeds and keeps it. -/
theorem foldlM_ok {α β ε : Type} (f : β → α → Except ε β) (Q : β → Prop) :
    ∀ (l : List α) (d : β), Q d → (∀ x ∈ l, ∀ d, Q d → ∃ d', f d x = .ok d' ∧ Q d') →
      ∃ d', l.foldlM f d = .ok d' ∧ Q d'
  | [], d, hd, _ => ⟨d, rfl, hd⟩
  | x :: l, d, hd, h => by
    obtain ⟨d1, h1, hq⟩ := h x (List.mem_cons_self _ _) d hd
    rw [List.foldlM_cons, h1, ok_bind]
    exact foldlM_ok f Q l d1 hq (fun y hy => h y (List.mem_cons_of_mem _ hy))

/-- A fold of steps that can fail stops only with an error some step gives. -/
theorem foldlM_error {α β ε : Type} (f : β → α → Except ε β) (P : ε → Prop)
    (step : ∀ d x e, f d x = .error e → P e) :
    ∀ (l : List α) (d : β) (e : ε), l.foldlM f d = .error e → P e
  | [], _, _, he => by cases he
  | x :: l, d, e, he => by
    rw [List.foldlM_cons] at he
    rcases hx : f d x with e' | d1
    · rw [hx] at he; cases he; exact step d x _ hx
    · rw [hx, ok_bind] at he; exact foldlM_error f P step l d1 e he

end abc_partition.vectors
