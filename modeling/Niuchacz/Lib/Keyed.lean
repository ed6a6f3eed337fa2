import Mathlib.Data.List.Nodup
import Mathlib.Data.List.Pairwise
import Mathlib.Data.List.Perm.Basic
import Mathlib.Logic.Function.Basic

namespace Lib.Keyed

/-!
# Tables of entries

Lists of pairs of a key and a value, as a table keeps them: in the order of its slots, or in the
order of an index.

* `Distinct` — no key stands twice; then the entries are what `List.lookup` finds.
* `replace`, `remove`, `insertBefore` — the operations on a list of slots, each a change of what
  `List.lookup` finds at one key.
* `entriesOf` — the entries of a partial function along a list of its arguments.
* `length_of_update`, `length_of_update_none` — two tables that differ at one key have entries in
  number accordingly, however they are laid out.
-/

variable {κ α : Type*} {l l' : List (κ × α)} {k j : κ} {x y : α}

/-- No key stands twice. -/
def Distinct (l : List (κ × α)) : Prop :=
  (l.map Prod.fst).Nodup

@[simp] theorem distinct_nil : Distinct ([] : List (κ × α)) := List.nodup_nil

theorem distinct_cons {e : κ × α} : Distinct (e :: l) ↔ e.1 ∉ l.map Prod.fst ∧ Distinct l :=
  List.nodup_cons

theorem Distinct.nodup (h : Distinct l) : l.Nodup :=
  List.Nodup.of_map _ h

theorem Distinct.perm (h : Distinct l) (hp : l.Perm l') : Distinct l' :=
  (hp.map Prod.fst).nodup_iff.mp h

theorem Distinct.sublist (h : Distinct l) (hs : l'.Sublist l) : Distinct l' :=
  List.Nodup.sublist (hs.map Prod.fst) h

/-- The key of an entry is among the keys. -/
theorem mem_map_fst (h : (k, x) ∈ l) : k ∈ l.map Prod.fst :=
  List.mem_map_of_mem h

theorem Distinct.eq_of_mem (h : Distinct l) (hx : (k, x) ∈ l) (hy : (k, y) ∈ l) : x = y := by
  have heq := List.inj_on_of_nodup_map h hx hy rfl
  exact congrArg Prod.snd heq

/-! ### Lookup -/

section Lookup

variable [DecidableEq κ]

/-- Nothing is found exactly for the keys that do not occur. -/
theorem lookup_eq_none : l.lookup k = none ↔ k ∉ l.map Prod.fst := by
  rw [List.lookup_eq_none_iff]
  constructor
  · intro h hmem
    obtain ⟨e, he, rfl⟩ := List.mem_map.mp hmem
    simpa using h e he
  · intro h e he
    have hne : k ≠ e.1 := by
      rintro rfl
      exact h (List.mem_map_of_mem he)
    simpa using hne

theorem mem_of_lookup (h : l.lookup k = some x) : (k, x) ∈ l := by
  obtain ⟨l₁, l₂, rfl, -⟩ := List.lookup_eq_some_iff.mp h
  simp

/-- With distinct keys the search finds every entry. -/
theorem Distinct.lookup_iff (h : Distinct l) : l.lookup k = some x ↔ (k, x) ∈ l := by
  refine ⟨mem_of_lookup, fun hmem => ?_⟩
  cases hl : l.lookup k with
  | none => exact absurd (mem_map_fst hmem) (lookup_eq_none.mp hl)
  | some y => rw [h.eq_of_mem hmem (mem_of_lookup hl)]

/-- An entry in front overrides the search function at its key. -/
theorem lookup_cons_eq (e : κ × α) (l : List (κ × α)) :
    (fun c => (e :: l).lookup c) = Function.update (fun c => l.lookup c) e.1 (some e.2) := by
  obtain ⟨k, x⟩ := e
  funext c
  by_cases hc : c = k
  · subst hc
    simp
  · rw [Function.update_of_ne hc, List.lookup_cons, beq_false_of_ne hc]

/-- With distinct keys the search does not depend on the order. -/
theorem Distinct.lookup_perm (h : Distinct l) (hp : l.Perm l') : l'.lookup k = l.lookup k := by
  apply Option.ext
  intro x
  rw [h.lookup_iff, (h.perm hp).lookup_iff, hp.mem_iff]

end Lookup

/-! ### Slots -/

/-- Put an entry before the first one whose key passes a test, or at the end. -/
def insertBefore (p : κ → Bool) (e : κ × α) (l : List (κ × α)) : List (κ × α) :=
  l.takeWhile (fun d => !p d.1) ++ e :: l.dropWhile (fun d => !p d.1)

/-- Wherever the entry goes, the entries are the old ones and the new one. -/
theorem insertBefore_perm (p : κ → Bool) (e : κ × α) (l : List (κ × α)) :
    (insertBefore p e l).Perm (e :: l) := by
  unfold insertBefore
  refine List.perm_middle.trans ?_
  rw [List.takeWhile_append_dropWhile]

@[simp] theorem length_insertBefore (p : κ → Bool) (e : κ × α) (l : List (κ × α)) :
    (insertBefore p e l).length = l.length + 1 :=
  (insertBefore_perm p e l).length_eq

/-- Insertion before the first key behind it keeps an ordered list ordered. -/
theorem pairwise_insertBefore {r : κ → κ → Prop} (htrans : ∀ {a b c}, r a b → r b c → r a c)
    (p : κ → Bool) (hbehind : ∀ e ∈ l, p e.1 = true → r k e.1)
    (hahead : ∀ e ∈ l, p e.1 = false → r e.1 k) (hl : (l.map Prod.fst).Pairwise r) (x : α) :
    ((insertBefore p (k, x) l).map Prod.fst).Pairwise r := by
  induction l with
  | nil => simp [insertBefore]
  | cons e l ih =>
    rw [List.map_cons, List.pairwise_cons] at hl
    cases htest : p e.1 with
    | true =>
      -- the new entry goes in front
      have hfront : insertBefore p (k, x) (e :: l) = (k, x) :: e :: l := by
        simp [insertBefore, htest]
      have hke : r k e.1 := hbehind e List.mem_cons_self htest
      rw [hfront]
      refine List.pairwise_cons.mpr ⟨fun j hj => ?_, List.pairwise_cons.mpr hl⟩
      rcases List.mem_cons.mp hj with rfl | hj
      · exact hke
      · exact htrans hke (hl.1 j hj)
    | false =>
      have hrest : insertBefore p (k, x) (e :: l) = e :: insertBefore p (k, x) l := by
        simp [insertBefore, htest]
      have hperm := (insertBefore_perm p (k, x) l).map Prod.fst
      rw [hrest]
      refine List.pairwise_cons.mpr ⟨fun j hj => ?_,
        ih (fun d hd => hbehind d (List.mem_cons_of_mem e hd))
          (fun d hd => hahead d (List.mem_cons_of_mem e hd)) hl.2⟩
      rcases List.mem_cons.mp (hperm.mem_iff.mp hj) with rfl | hj
      · exact hahead e List.mem_cons_self htest
      · exact hl.1 j hj

section Slots

variable [DecidableEq κ]

/-- Overwrite the value of the first entry of a key. -/
def replace (k : κ) (y : α) : List (κ × α) → List (κ × α)
  | [] => []
  | e :: l => if e.1 = k then (e.1, y) :: l else e :: replace k y l

/-- Overwriting a value leaves the keys as they are. -/
@[simp] theorem map_fst_replace (k : κ) (y : α) (l : List (κ × α)) :
    (replace k y l).map Prod.fst = l.map Prod.fst := by
  induction l with
  | nil => rfl
  | cons e l ih =>
    unfold replace
    split
    · rfl
    · simp [ih]

/-- It leaves the number of entries as it is. -/
@[simp] theorem length_replace (k : κ) (y : α) (l : List (κ × α)) :
    (replace k y l).length = l.length := by
  rw [← List.length_map Prod.fst, map_fst_replace, List.length_map]

theorem Distinct.replace (h : Distinct l) (k : κ) (y : α) : Distinct (replace k y l) := by
  unfold Distinct
  rw [map_fst_replace]
  exact h

/-- Overwriting a value updates the search function at its key. -/
theorem lookup_replace (hk : k ∈ l.map Prod.fst) (y : α) :
    (fun c => (replace k y l).lookup c) = Function.update (fun c => l.lookup c) k (some y) := by
  induction l with
  | nil => simp at hk
  | cons e l ih =>
    unfold replace
    split
    case isTrue he =>
      rw [lookup_cons_eq, lookup_cons_eq, he, Function.update_idem]
    case isFalse he =>
      have hk' : k ∈ l.map Prod.fst := by
        simpa [Ne.symm he] using hk
      rw [lookup_cons_eq, lookup_cons_eq, ih hk', Function.update_comm he]

/-- Take the first entry of a key out, and close the gap. -/
def remove (k : κ) (l : List (κ × α)) : List (κ × α) :=
  l.eraseP (·.1 = k)

/-- Removing an entry keeps the order of the others. -/
theorem remove_sublist (k : κ) (l : List (κ × α)) : (remove k l).Sublist l :=
  List.eraseP_sublist

/-- There is one entry less, if the key occurs. -/
theorem length_remove (hk : k ∈ l.map Prod.fst) : (remove k l).length + 1 = l.length := by
  obtain ⟨e, he, rfl⟩ := List.mem_map.mp hk
  have h := List.length_eraseP_of_mem (p := (·.1 = e.1)) he (by simp)
  have hpos := List.length_pos_of_mem he
  unfold remove
  omega

/-- With distinct keys nothing is found under the key any more, and the rest is as before. -/
theorem lookup_remove (h : Distinct l) (k : κ) :
    (fun c => (remove k l).lookup c) = Function.update (fun c => l.lookup c) k none := by
  induction l with
  | nil =>
    funext c
    simp [remove, Function.update_apply]
  | cons e l ih =>
    obtain ⟨hnot, hl⟩ := distinct_cons.mp h
    unfold remove
    by_cases he : e.1 = k
    · rw [List.eraseP_cons_of_pos (by simpa using he), lookup_cons_eq, he, Function.update_idem]
      -- the key does not come again behind the entry that is removed
      have hnone : l.lookup k = none := lookup_eq_none.mpr (he ▸ hnot)
      rw [← hnone, Function.update_eq_self]
    · rw [List.eraseP_cons_of_neg (by simpa using he), lookup_cons_eq, lookup_cons_eq,
        Function.update_comm he]
      have hrest := ih hl
      unfold remove at hrest
      rw [hrest]

theorem Distinct.insertBefore (h : Distinct l) (p : κ → Bool) (hk : l.lookup k = none) (x : α) :
    Distinct (insertBefore p (k, x) l) := by
  have hcons : Distinct ((k, x) :: l) := distinct_cons.mpr ⟨lookup_eq_none.mp hk, h⟩
  exact hcons.perm (insertBefore_perm p (k, x) l).symm

/-- A new entry updates the search function at its key, wherever it is put. -/
theorem lookup_insertBefore (h : Distinct l) (p : κ → Bool) (hk : l.lookup k = none) (x : α) :
    (fun c => (insertBefore p (k, x) l).lookup c)
      = Function.update (fun c => l.lookup c) k (some x) := by
  have hcons : Distinct ((k, x) :: l) := distinct_cons.mpr ⟨lookup_eq_none.mp hk, h⟩
  rw [← lookup_cons_eq (k, x) l]
  funext c
  exact hcons.lookup_perm (insertBefore_perm p (k, x) l).symm

end Slots

/-! ### Partial functions -/

section Partial

variable {f g : κ → Option α} {idx : List κ}

/-- The entries of a partial function along a list of arguments. -/
def entriesOf (f : κ → Option α) (idx : List κ) : List (κ × α) :=
  idx.filterMap fun k => (f k).map (k, ·)

/-- The entries are the arguments with a value, together with it. -/
theorem mem_entriesOf : (k, x) ∈ entriesOf f idx ↔ k ∈ idx ∧ f k = some x := by
  simp only [entriesOf, List.mem_filterMap, Option.map_eq_some_iff, Prod.mk.injEq]
  constructor
  · rintro ⟨k', hk', y, hy, rfl, rfl⟩
    exact ⟨hk', hy⟩
  · rintro ⟨hk, hx⟩
    exact ⟨k, hk, x, hx, rfl, rfl⟩

/-- Their keys are the arguments with a value, in the order of the list. -/
theorem map_fst_entriesOf (f : κ → Option α) (idx : List κ) :
    (entriesOf f idx).map Prod.fst = idx.filter fun k => (f k).isSome := by
  induction idx with
  | nil => rfl
  | cons k idx ih =>
    unfold entriesOf at ih ⊢
    cases hk : f k with
    | none => simpa [hk] using ih
    | some x => simpa [hk] using ih

/-- So the keys inherit any order of the arguments. -/
theorem pairwise_entriesOf {r : κ → κ → Prop} (h : idx.Pairwise r) (f : κ → Option α) :
    ((entriesOf f idx).map Prod.fst).Pairwise r := by
  rw [map_fst_entriesOf]
  exact h.sublist List.filter_sublist

/-- Arguments that are passed once give one entry each. -/
theorem distinct_entriesOf (h : idx.Nodup) (f : κ → Option α) : Distinct (entriesOf f idx) :=
  pairwise_entriesOf h f

end Partial

/-! ### One key changed -/

section Update

variable [DecidableEq κ] {f g : κ → Option α}

/-- The list holds the graph of the partial function, every entry once. -/
structure Lists (l : List (κ × α)) (f : κ → Option α) : Prop where
  distinct : Distinct l
  mem_iff : ∀ k x, (k, x) ∈ l ↔ f k = some x

/-- A list with distinct keys lists its own search function. -/
theorem Distinct.lists (h : Distinct l) : Lists l (fun k => l.lookup k) :=
  ⟨h, fun _ _ => h.lookup_iff.symm⟩

omit [DecidableEq κ] in
/-- A loop over all arguments lists the function. -/
theorem lists_entriesOf {idx : List κ} (h : idx.Nodup) (hall : ∀ k, k ∈ idx) (f : κ → Option α) :
    Lists (entriesOf f idx) f :=
  ⟨distinct_entriesOf h f, fun k x => by simp [mem_entriesOf, hall k]⟩

/-- A key added: one entry more. -/
theorem length_of_update (hl : Lists l f) (hl' : Lists l' (Function.update f k (some x)))
    (hk : f k = none) : l'.length = l.length + 1 := by
  have hnot : k ∉ l.map Prod.fst := by
    intro hmem
    obtain ⟨e, he, rfl⟩ := List.mem_map.mp hmem
    have := (hl.mem_iff e.1 e.2).mp he
    simp [hk] at this
  have hcons : Distinct ((k, x) :: l) := distinct_cons.mpr ⟨hnot, hl.distinct⟩
  have hperm : l'.Perm ((k, x) :: l) := by
    rw [List.perm_ext_iff_of_nodup hl'.distinct.nodup hcons.nodup]
    rintro ⟨j, y⟩
    rw [hl'.mem_iff, List.mem_cons, hl.mem_iff, Function.update_apply]
    by_cases hj : j = k
    · subst hj
      simp [hk, eq_comm]
    · simp [hj]
  simpa using hperm.length_eq

/-- A key overwritten: as many entries. -/
theorem length_of_update_some (hl : Lists l f) (hl' : Lists l' (Function.update f k (some y)))
    (hk : f k = some x) : l'.length = l.length := by
  -- the keys of a list are the arguments with a value, and these have not changed
  have hkeys : ∀ (m : List (κ × α)) (h : κ → Option α), Lists m h →
      ∀ j, j ∈ m.map Prod.fst ↔ (h j).isSome := by
    intro m h hm j
    rw [List.mem_map, Option.isSome_iff_exists]
    constructor
    · rintro ⟨⟨j', z⟩, he, rfl⟩
      exact ⟨z, (hm.mem_iff j' z).mp he⟩
    · rintro ⟨z, hz⟩
      exact ⟨(j, z), (hm.mem_iff j z).mpr hz, rfl⟩
  have hperm : (l'.map Prod.fst).Perm (l.map Prod.fst) := by
    rw [List.perm_ext_iff_of_nodup hl'.distinct hl.distinct]
    intro j
    rw [hkeys l' _ hl', hkeys l _ hl, Function.update_apply]
    by_cases hj : j = k
    · subst hj
      simp [hk]
    · simp [hj]
  simpa using hperm.length_eq

/-- A key taken out: one entry less. -/
theorem length_of_update_none (hl : Lists l f) (hl' : Lists l' (Function.update f k none))
    (hk : f k = some x) : l'.length + 1 = l.length := by
  have hback : Function.update (Function.update f k none) k (some x) = f := by
    rw [Function.update_idem, ← hk, Function.update_eq_self]
  exact (length_of_update hl' (hback.symm ▸ hl) (by simp)).symm

end Update

end Lib.Keyed
