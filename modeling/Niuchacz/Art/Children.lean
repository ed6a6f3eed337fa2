import Niuchacz.Lib.Keyed
import Mathlib.Data.List.Induction

namespace Niuchacz.Art

open Lib.Keyed

/-!
# The child tables of the radix tree (`art.c`)

An inner node keeps its children, each under the next byte of the keys below it, in one of four
layouts, and moves to the next larger or smaller one as children come and go.

* `Children` — the four layouts; `findChild`, `setChild`, `addChild`, `removeChild` as `art.c` has
  them, with the conversions between the layouts.
* `Children.Shape` — what holds of every table, however full; `Children.Occupied` — how full each
  layout is between two operations.
* `findChild_addChild`, `findChild_setChild`, `findChild_removeChild` — every operation changes
  what is found under one byte and nothing else.
* `valid_addChild`, `valid_setChild`, `valid_removeChild` — and keeps the table valid.
-/

universe u

/-- The bytes in the order of the loops `for (i=0; i<256; i++)`. -/
def allBytes : List UInt8 :=
  (List.range 256).map UInt8.ofNat

/-- The loops over the 256 bytes run upwards. -/
theorem pairwise_allBytes : allBytes.Pairwise (· < ·) := by
  refine List.pairwise_map.mpr ?_
  refine (List.pairwise_lt_range (n := 256)).imp_of_mem ?_
  intro i j hi hj hij
  have hi' := List.mem_range.mp hi
  have hj' := List.mem_range.mp hj
  rw [UInt8.lt_iff_toNat_lt, UInt8.toNat_ofNat', UInt8.toNat_ofNat']
  omega

theorem nodup_allBytes : allBytes.Nodup := by
  refine pairwise_allBytes.imp ?_
  intro i j hij heq
  exact UInt8.lt_irrefl _ (heq ▸ hij)

theorem mem_allBytes (c : UInt8) : c ∈ allBytes := by
  refine List.mem_map.mpr ⟨c.toNat, List.mem_range.mpr c.toNat_lt, ?_⟩
  simp

/-- The children of an inner node: `art_node4` and `art_node16` keep `num_children` keys with their
    children, `art_node48` a table of slot numbers (one more than the slot, 0 for none) and the
    slots, `art_node256` a slot for every byte. -/
inductive Children (α : Type u) where
  | node4 (entries : List (UInt8 × α))
  | node16 (entries : List (UInt8 × α))
  | node48 (numChildren : UInt8) (keys : UInt8 → UInt8) (children : List (Option α))
  | node256 (numChildren : UInt8) (children : UInt8 → Option α)

namespace Children

variable {α : Type u} {c d : UInt8} {x y : α} {cs : Children α} {es : List (UInt8 × α)}
  {n : UInt8} {keys : UInt8 → UInt8} {slots : List (Option α)}

/-- `children[keys[c] - 1]` of a node48, if the byte has a slot. -/
def slot (keys : UInt8 → UInt8) (slots : List (Option α)) (c : UInt8) : Option α :=
  if keys c = 0 then none else slots[(keys c).toNat - 1]?.join

/-- `find_child`.  The bit mask of a node16 has the matching keys among the first `num_children`,
    and its lowest bit is the first match. -/
def findChild (c : UInt8) : Children α → Option α
  | node4 es => es.lookup c
  | node16 es => es.lookup c
  | node48 _ keys slots => slot keys slots c
  | node256 _ children => children c

/-- Write through the pointer that `find_child` returned. -/
def setChild (c : UInt8) (x : α) : Children α → Children α
  | node4 es => node4 (replace c x es)
  | node16 es => node16 (replace c x es)
  | node48 n keys slots => node48 n keys (slots.set ((keys c).toNat - 1) (some x))
  | node256 n children => node256 n (Function.update children c (some x))

/-- The loops that fill a fresh node48: entry by entry into the next slot. -/
def compact (es : List (UInt8 × α)) : (UInt8 → UInt8) × List (Option α) :=
  es.zipIdx.foldl
    (fun node e => (Function.update node.1 e.1.1 (UInt8.ofNat (e.2 + 1)),
      node.2.set e.2 (some e.1.2)))
    (fun _ => 0, List.replicate 48 none)

def addChild256 (n : UInt8) (children : UInt8 → Option α) (c : UInt8) (child : α) : Children α :=
  node256 (n + 1) (Function.update children c (some child))

def addChild48 (n : UInt8) (keys : UInt8 → UInt8) (slots : List (Option α)) (c : UInt8)
    (child : α) : Children α :=
  if n < 48 then
    -- `while (n->children[pos]) pos++`
    let pos := slots.findIdx Option.isNone
    node48 (n + 1) (Function.update keys c (UInt8.ofNat (pos + 1))) (slots.set pos (some child))
  else
    addChild256 n (slot keys slots) c child

/-- The SSE2 comparison of `add_child16` is one of signed bytes. -/
def signedLess (c : UInt8) (k : UInt8) : Bool :=
  c.toInt8 < k.toInt8

def addChild16 (es : List (UInt8 × α)) (c : UInt8) (child : α) : Children α :=
  if es.length < 16 then
    node16 (insertBefore (signedLess c) (c, child) es)
  else
    addChild48 (UInt8.ofNat es.length) (compact es).1 (compact es).2 c child

def addChild4 (es : List (UInt8 × α)) (c : UInt8) (child : α) : Children α :=
  if es.length < 4 then
    node4 (insertBefore (fun k => c < k) (c, child) es)
  else
    addChild16 es c child

def addChild (c : UInt8) (child : α) : Children α → Children α
  | node4 es => addChild4 es c child
  | node16 es => addChild16 es c child
  | node48 n keys slots => addChild48 n keys slots c child
  | node256 n children => addChild256 n children c child

def removeChild256 (n : UInt8) (children : UInt8 → Option α) (c : UInt8) : Children α :=
  let children := Function.update children c none
  if n - 1 = 37 then
    let live := entriesOf children allBytes
    node48 (n - 1) (compact live).1 (compact live).2
  else
    node256 (n - 1) children

def removeChild48 (n : UInt8) (keys : UInt8 → UInt8) (slots : List (Option α)) (c : UInt8) :
    Children α :=
  let slots := slots.set ((keys c).toNat - 1) none
  let keys := Function.update keys c 0
  if n - 1 = 12 then
    node16 (entriesOf (slot keys slots) allBytes)
  else
    node48 (n - 1) keys slots

def removeChild16 (es : List (UInt8 × α)) (c : UInt8) : Children α :=
  let es := remove c es
  if es.length = 3 then node4 es else node16 es

/-- `remove_child`, but for the node4 left with a single child, which the tree replaces by that
    child. -/
def removeChild (c : UInt8) : Children α → Children α
  | node4 es => node4 (remove c es)
  | node16 es => removeChild16 es c
  | node48 n keys slots => removeChild48 n keys slots c
  | node256 n children => removeChild256 n children c

/-- The children in the order in which `recursive_iter`, `minimum` and `maximum` see them. -/
def entries : Children α → List (UInt8 × α)
  | node4 es => es
  | node16 es => es
  | node48 _ keys slots => entriesOf (slot keys slots) allBytes
  | node256 _ children => entriesOf children allBytes

@[simp] theorem entries_node4 : (node4 es).entries = es := rfl
@[simp] theorem entries_node16 : (node16 es).entries = es := rfl

/-- Unfolding lemma: a node4 is searched for the key. -/
@[simp] theorem findChild_node4 : (node4 es).findChild c = es.lookup c := rfl

/-- Unfolding lemma: a node16 is searched for the key, by SSE or by a loop. -/
@[simp] theorem findChild_node16 : (node16 es).findChild c = es.lookup c := rfl

/-- Unfolding lemma: a node48 goes through the index that it keeps for the byte. -/
@[simp] theorem findChild_node48 : (node48 n keys slots).findChild c = slot keys slots c := rfl

/-- Unfolding lemma: a node256 is read at the byte. -/
@[simp] theorem findChild_node256 (children : UInt8 → Option α) :
    (node256 n children).findChild c = children c := rfl

/-! ### The links of a node48 -/

/-- Key table and slots of a node48 fit: a byte with a slot number has a child there, no two bytes
    share a slot, and no slot is lost. -/
structure Linked (keys : UInt8 → UInt8) (slots : List (Option α)) : Prop where
  length_slots : slots.length = 48
  used : ∀ c, keys c ≠ 0 → (slot keys slots c).isSome
  inj : ∀ c d, keys c ≠ 0 → keys c = keys d → c = d
  count : slots.countP Option.isSome = (entriesOf (slot keys slots) allBytes).length

/-- The entries of a node48 list its search function. -/
theorem lists_slot (keys : UInt8 → UInt8) (slots : List (Option α)) :
    Lists (entriesOf (slot keys slots) allBytes) (slot keys slots) :=
  lists_entriesOf nodup_allBytes mem_allBytes _

/-- So they do for any other description of that function. -/
theorem lists_of_slot {f : UInt8 → Option α} (h : slot keys slots = f) :
    Lists (entriesOf (slot keys slots) allBytes) f := by
  subst h
  exact lists_slot keys slots

/-- A key other than 0 is the number of its slot, counted from 1. -/
theorem slot_of_ne_zero (h : keys c ≠ 0) : slot keys slots c = slots[(keys c).toNat - 1]?.join :=
  if_neg h

/-- The key 0 means that the byte has no child. -/
theorem slot_of_zero (h : keys c = 0) : slot keys slots c = none :=
  if_pos h

theorem ne_zero_of_some (hc : slot keys slots c = some x) : keys c ≠ 0 := by
  intro hzero
  rw [slot_of_zero hzero] at hc
  cases hc

/-- A child is in the slot of its key. -/
theorem Linked.getElem?_of_some (hc : slot keys slots c = some x) :
    slots[(keys c).toNat - 1]? = some (some x) := by
  rw [slot_of_ne_zero (ne_zero_of_some hc)] at hc
  exact Option.join_eq_some_iff.mp hc

/-- Every key in use is the number of one of the 48 slots. -/
theorem Linked.sub_one_lt (h : Linked keys slots) (hc : keys c ≠ 0) : (keys c).toNat - 1 < 48 := by
  obtain ⟨x, hx⟩ := Option.isSome_iff_exists.mp (h.used c hc)
  have hget := Linked.getElem?_of_some hx
  rw [← h.length_slots]
  exact (List.getElem?_eq_some_iff.mp hget).1

/-- A key that is not 0 is positive, so that 1 can be taken away without wrapping. -/
theorem toNat_pos (hc : keys c ≠ 0) : 0 < (keys c).toNat := by
  rw [Nat.pos_iff_ne_zero]
  intro hzero
  exact hc (UInt8.toNat_inj.mp hzero)

/-- Different bytes lead to different slots. -/
theorem Linked.sub_one_ne (h : Linked keys slots) (hc : keys c ≠ 0) (hd : keys d ≠ 0)
    (hne : d ≠ c) : (keys c).toNat - 1 ≠ (keys d).toNat - 1 := by
  intro heq
  have hpos := toNat_pos hc
  have hpos' := toNat_pos hd
  have hkeys : keys c = keys d := UInt8.toNat_inj.mp (by omega)
  exact hne (h.inj c d hc hkeys).symm

/-- A write to a slot is seen under the byte of that slot only. -/
theorem Linked.slot_set (h : Linked keys slots) (hc : keys c ≠ 0) (o : Option α) :
    slot keys (slots.set ((keys c).toNat - 1) o) = Function.update (slot keys slots) c o := by
  funext d
  by_cases hd : d = c
  · subst hd
    rw [Function.update_self, slot_of_ne_zero hc, List.getElem?_set_self]
    · rfl
    · rw [h.length_slots]
      exact h.sub_one_lt hc
  · rw [Function.update_of_ne hd]
    by_cases hzero : keys d = 0
    · rw [slot_of_zero hzero, slot_of_zero hzero]
    · rw [slot_of_ne_zero hzero, slot_of_ne_zero hzero,
        List.getElem?_set_ne (h.sub_one_ne hc hzero hd)]

/-- Writing a slot changes the number of slots in use by what is in it before and after. -/
theorem countP_set_of_getElem? {pos : ℕ} {o : Option α} (hpos : slots[pos]? = some o)
    (o' : Option α) :
    (slots.set pos o').countP Option.isSome + o.toList.length
      = slots.countP Option.isSome + o'.toList.length := by
  obtain ⟨hlt, hget⟩ := List.getElem?_eq_some_iff.mp hpos
  have hle : 0 < slots.countP Option.isSome ∨ o = none := by
    cases o with
    | none => exact Or.inr rfl
    | some z => exact Or.inl (List.countP_pos_iff.mpr ⟨some z, List.mem_of_getElem? hpos, rfl⟩)
  rw [List.countP_set hlt, hget]
  cases o with
  | none => cases o' <;> simp
  | some z =>
    have : 0 < slots.countP Option.isSome := hle.resolve_right (by simp)
    cases o' <;> simp <;> omega

/-- `*child = ...` in a used slot. -/
theorem Linked.set (h : Linked keys slots) (hc : slot keys slots c = some x) (y : α) :
    Linked keys (slots.set ((keys c).toNat - 1) (some y)) := by
  have hne := ne_zero_of_some hc
  have hslot := h.slot_set hne (some y)
  refine ⟨by rw [List.length_set, h.length_slots], fun d hd => ?_, h.inj, ?_⟩
  · rw [hslot, Function.update_apply]
    split
    · rfl
    · exact h.used d hd
  · have hcount := countP_set_of_getElem? (Linked.getElem?_of_some hc) (some y)
    have hlen := length_of_update_some (lists_slot keys slots) (lists_of_slot hslot) hc
    have hold := h.count
    simp only [Option.toList_some, List.length_singleton] at hcount
    omega

/-- The number of a slot fits the byte in which it is stored. -/
theorem toNat_ofNat_succ {pos : ℕ} (hpos : pos < 48) : (UInt8.ofNat (pos + 1)).toNat = pos + 1 := by
  rw [UInt8.toNat_ofNat']
  omega

/-- It is not 0, the mark of an absent child. -/
theorem ofNat_succ_ne_zero {pos : ℕ} (hpos : pos < 48) : UInt8.ofNat (pos + 1) ≠ 0 := by
  intro h
  have := congrArg UInt8.toNat h
  rw [toNat_ofNat_succ hpos] at this
  simp at this

/-- A slot number leads to a used slot, so never to an empty one. -/
theorem Linked.ne_succ (h : Linked keys slots) {pos : ℕ} (hpos : pos < 48)
    (hempty : slots[pos]? = some none) (d : UInt8) : keys d ≠ UInt8.ofNat (pos + 1) := by
  intro heq
  have hne : keys d ≠ 0 := heq ▸ ofNat_succ_ne_zero hpos
  obtain ⟨x, hx⟩ := Option.isSome_iff_exists.mp (h.used d hne)
  have hget := Linked.getElem?_of_some hx
  rw [heq, toNat_ofNat_succ hpos, Nat.add_sub_cancel, hempty] at hget
  cases hget

section Fill

variable (h : Linked keys slots) {pos : ℕ} (hpos : pos < 48) (hempty : slots[pos]? = some none)
  (hc : slot keys slots c = none) (x : α)

include h hpos hempty in
/-- A child put into an empty slot is seen under its byte only. -/
theorem Linked.slot_fill :
    slot (Function.update keys c (UInt8.ofNat (pos + 1))) (slots.set pos (some x))
      = Function.update (slot keys slots) c (some x) := by
  funext d
  by_cases hd : d = c
  · subst hd
    unfold slot
    rw [Function.update_self, Function.update_self, if_neg (ofNat_succ_ne_zero hpos),
      toNat_ofNat_succ hpos, Nat.add_sub_cancel, List.getElem?_set_self (h.length_slots ▸ hpos)]
    rfl
  · rw [Function.update_of_ne hd]
    unfold slot
    rw [Function.update_of_ne hd]
    split
    case isTrue hzero => rfl
    case isFalse hzero =>
      -- another byte does not use the free slot: its key would be the number of an empty slot
      have hne : pos ≠ (keys d).toNat - 1 := by
        intro heq
        have hpos' := toNat_pos hzero
        refine h.ne_succ hpos hempty d (UInt8.toNat_inj.mp ?_)
        rw [toNat_ofNat_succ hpos]
        omega
      rw [List.getElem?_set_ne hne]

include h hpos hempty hc in
/-- A child put into a free slot, under a byte that has had none, keeps the links right. -/
theorem Linked.fill :
    Linked (Function.update keys c (UInt8.ofNat (pos + 1))) (slots.set pos (some x)) := by
  have hslot := h.slot_fill hpos hempty (c := c) x
  refine ⟨by rw [List.length_set, h.length_slots], fun d hd => ?_, fun a b ha hab => ?_, ?_⟩
  -- every key leads to a child
  · rw [hslot, Function.update_apply]
    split
    · rfl
    case isFalse hne => exact h.used d (by rwa [Function.update_of_ne hne] at hd)
  -- no two bytes share a slot; the number of the free one is not a key yet
  · rw [Function.update_apply, Function.update_apply] at hab
    rw [Function.update_apply] at ha
    split at hab <;> split at hab
    case isTrue.isTrue ha' hb' => exact ha'.trans hb'.symm
    case isTrue.isFalse => exact absurd hab.symm (h.ne_succ hpos hempty b)
    case isFalse.isTrue => exact absurd hab (h.ne_succ hpos hempty a)
    case isFalse.isFalse ha' hb' => exact h.inj a b (by rwa [if_neg ha'] at ha) hab
  -- one slot more is in use, and one byte more has a child
  · have hcount := countP_set_of_getElem? hempty (some x)
    have hlen := length_of_update (lists_slot keys slots) (lists_of_slot hslot) hc
    have hold := h.count
    simp only [Option.toList_none, Option.toList_some, List.length_singleton, List.length_nil]
      at hcount
    omega

end Fill

/-- The byte is cut off before its slot is emptied. -/
theorem Linked.slot_clear (h : Linked keys slots) (hc : slot keys slots c = some x) :
    slot (Function.update keys c 0) (slots.set ((keys c).toNat - 1) none)
      = Function.update (slot keys slots) c none := by
  rw [← h.slot_set (ne_zero_of_some hc) none]
  funext d
  by_cases hd : d = c
  · subst hd
    have hlt : (keys d).toNat - 1 < slots.length := by
      rw [h.length_slots]
      exact h.sub_one_lt (ne_zero_of_some hc)
    rw [slot_of_zero (Function.update_self ..), slot_of_ne_zero (ne_zero_of_some hc),
      List.getElem?_set_self hlt]
    rfl
  · unfold slot
    rw [Function.update_of_ne hd]

/-- A child taken out with its key keeps the links right. -/
theorem Linked.clear (h : Linked keys slots) (hc : slot keys slots c = some x) :
    Linked (Function.update keys c 0) (slots.set ((keys c).toNat - 1) none) := by
  have hslot := h.slot_clear hc
  refine ⟨by rw [List.length_set, h.length_slots], fun d hd => ?_, fun a b ha hab => ?_, ?_⟩
  -- every key that is left leads to a child
  · have hne : d ≠ c := by
      rintro rfl
      exact hd (Function.update_self ..)
    rw [Function.update_of_ne hne] at hd
    rw [hslot, Function.update_of_ne hne]
    exact h.used d hd
  -- no two bytes share a slot
  · have hne : a ≠ c := by
      rintro rfl
      exact ha (Function.update_self ..)
    have hne' : b ≠ c := by
      rintro rfl
      rw [Function.update_self] at hab
      exact ha hab
    rw [Function.update_of_ne hne] at ha hab
    rw [Function.update_of_ne hne'] at hab
    exact h.inj a b ha hab
  -- one slot less is in use, and one byte less has a child
  · have hcount := countP_set_of_getElem? (Linked.getElem?_of_some hc) none
    have hlen := length_of_update_none (lists_slot keys slots) (lists_of_slot hslot) hc
    have hold := h.count
    simp only [Option.toList_none, Option.toList_some, List.length_singleton, List.length_nil]
      at hcount
    omega

/-- A new node48 has neither keys nor children. -/
theorem linked_empty : Linked (fun _ => 0) (List.replicate 48 (none : Option α)) where
  length_slots := List.length_replicate
  used := fun _ h => absurd rfl h
  inj := fun _ _ h => absurd rfl h
  count := by simp [entriesOf, slot]

/-- An empty slot is found as long as not all are used. -/
theorem Linked.exists_empty (h : Linked keys slots)
    (hlt : (entriesOf (slot keys slots) allBytes).length < 48) :
    slots.findIdx Option.isNone < 48
      ∧ slots[slots.findIdx Option.isNone]? = some none := by
  have hexists : ∃ o ∈ slots, o.isNone = true := by
    by_contra hall
    push Not at hall
    have hcount : slots.countP Option.isSome = slots.length := by
      rw [List.countP_eq_length]
      intro o ho
      have := hall o ho
      cases o <;> simp_all
    rw [h.count, h.length_slots] at hcount
    omega
  have hfind := List.findIdx_lt_length_of_exists hexists
  refine ⟨h.length_slots ▸ hfind, ?_⟩
  have hnone := List.findIdx_getElem (w := hfind)
  rw [List.getElem?_eq_getElem hfind, Option.isNone_iff_eq_none.mp hnone]

/-- Copying one more entry into a node48 takes the next slot for it. -/
theorem compact_concat (es : List (UInt8 × α)) (e : UInt8 × α) :
    compact (es ++ [e]) = (Function.update (compact es).1 e.1 (UInt8.ofNat (es.length + 1)),
      (compact es).2.set es.length (some e.2)) := by
  simp [compact, List.zipIdx_append]

/-- A fresh node48 filled with at most 48 entries holds these entries.  Its slots are used up in
    order, so that the next entry finds an empty one. -/
theorem linked_compact (hes : Distinct es) (hlen : es.length ≤ 48) :
    Linked (compact es).1 (compact es).2
      ∧ slot (compact es).1 (compact es).2 = (fun c => es.lookup c)
      ∧ ∀ pos, es.length ≤ pos → pos < 48 → (compact es).2[pos]? = some none := by
  -- the loop fills the slots from the left: induction from the end of the list
  induction es using List.reverseRecOn with
  | nil =>
    refine ⟨linked_empty, ?_, ?_⟩
    · funext c
      rfl
    · intro pos _ hpos
      exact List.getElem?_replicate_of_lt hpos
  | append_singleton es e ih =>
    have hsub : Distinct es := hes.sublist (List.sublist_append_left es [e])
    have hlt : es.length < 48 := by
      rw [List.length_append] at hlen
      exact hlen
    obtain ⟨hlinked, hslot, hempty⟩ := ih hsub (by omega)
    -- the key of the last entry has not been seen before
    have hnot : es.lookup e.1 = none := by
      have hperm := hes.perm (List.perm_append_singleton e es)
      exact lookup_eq_none.mpr (distinct_cons.mp hperm).1
    have hnone : slot (compact es).1 (compact es).2 e.1 = none :=
      (congrFun hslot e.1).trans hnot
    have hhere := hempty es.length (Nat.le_refl _) hlt
    rw [compact_concat]
    refine ⟨hlinked.fill hlt hhere hnone e.2, ?_, ?_⟩
    · rw [hlinked.slot_fill hlt hhere, hslot, ← lookup_cons_eq]
      funext c
      exact hes.lookup_perm (List.perm_append_singleton e es)
    · intro pos hpos hlt'
      rw [List.length_append, List.length_singleton] at hpos
      rw [List.getElem?_set_ne (by omega)]
      exact hempty pos (by omega) hlt'

/-! ### Shape -/

/-- What holds of a table however full it is: no byte twice, links that fit, the right count.  The
    count is a byte, which a full node256 takes to 0. -/
def Shape : Children α → Prop
  | node4 es => Distinct es
  | node16 es => Distinct es
  | node48 n keys slots =>
    Linked keys slots ∧ n = UInt8.ofNat (entriesOf (slot keys slots) allBytes).length
  | node256 n children => n = UInt8.ofNat (entriesOf children allBytes).length

/-- In a node of the right shape the entries list the search function: the loops of `art_iter` and
    of `find_child` agree. -/
theorem Shape.lists (h : cs.Shape) : Lists cs.entries (fun c => cs.findChild c) := by
  cases cs with
  | node4 es => exact Distinct.lists h
  | node16 es => exact Distinct.lists h
  | node48 n keys slots => exact lists_slot keys slots
  | node256 n children => exact lists_entriesOf nodup_allBytes mem_allBytes children

/-- An entry is a byte and the child that is found under it. -/
theorem Shape.mem_entries (h : cs.Shape) : (c, x) ∈ cs.entries ↔ cs.findChild c = some x :=
  h.lists.mem_iff c x

/-- No byte has two entries. -/
theorem Shape.distinct (h : cs.Shape) : Distinct cs.entries :=
  h.lists.distinct

/-- How full each layout is: it grows when it is full, and shrinks only well below the capacity of
    the smaller layout. -/
def Occupied : Children α → Prop
  | node4 es => 2 ≤ es.length ∧ es.length ≤ 4
  | node16 es => 4 ≤ es.length ∧ es.length ≤ 16
  | node48 _ keys slots =>
    13 ≤ (entriesOf (slot keys slots) allBytes).length
      ∧ (entriesOf (slot keys slots) allBytes).length ≤ 48
  | node256 _ children => 38 ≤ (entriesOf children allBytes).length

/-- A table between two operations. -/
structure Valid (cs : Children α) : Prop where
  shape : cs.Shape
  occupied : cs.Occupied

/-- A node keeps at least two children: one that is left with one is merged with it. -/
theorem Valid.two_le_length (h : cs.Valid) : 2 ≤ cs.entries.length := by
  have hocc := h.occupied
  cases cs <;> simp only [Occupied, entries] at hocc ⊢ <;> omega

theorem length_entriesOf_le (f : UInt8 → Option α) : (entriesOf f allBytes).length ≤ 256 := by
  rw [← List.length_map Prod.fst, map_fst_entriesOf]
  have h := List.length_filter_le (fun k => (f k).isSome) allBytes
  simpa [allBytes] using h

/-- The count of a node up to 48 is what its byte says. -/
theorem toNat_ofNat_of_le {m : ℕ} (h : m ≤ 48) : (UInt8.ofNat m).toNat = m := by
  rw [UInt8.toNat_ofNat']
  omega

/-- So the test of `add_child48` compares the number itself. -/
theorem ofNat_lt_48_iff {m : ℕ} (h : m ≤ 48) : UInt8.ofNat m < 48 ↔ m < 48 := by
  rw [UInt8.lt_iff_toNat_lt, toNat_ofNat_of_le h]
  rfl

/-- The count goes up with a child, modulo 256 as its type has it. -/
theorem ofNat_succ (m : ℕ) : UInt8.ofNat (m + 1) = UInt8.ofNat m + 1 := by
  rw [UInt8.ofNat_add]
  rfl

theorem ofNat_succ_sub_one (m : ℕ) : UInt8.ofNat (m + 1) - 1 = UInt8.ofNat m := by
  rw [ofNat_succ, UInt8.add_sub_cancel]

/-! ### Writing to a child -/

/-- Replacing a child changes what is found under its byte and nothing else. -/
theorem findChild_setChild (h : cs.Shape) (hc : cs.findChild c = some x) (y : α) :
    (fun d => (cs.setChild c y).findChild d)
      = Function.update (fun d => cs.findChild d) c (some y) := by
  cases cs with
  | node4 es => exact lookup_replace (mem_map_fst (mem_of_lookup hc)) y
  | node16 es => exact lookup_replace (mem_map_fst (mem_of_lookup hc)) y
  | node48 n keys slots => exact h.1.slot_set (ne_zero_of_some hc) (some y)
  | node256 n children => rfl

theorem valid_setChild (h : cs.Valid) (hc : cs.findChild c = some x) (y : α) :
    (cs.setChild c y).Valid := by
  obtain ⟨hshape, hocc⟩ := h
  cases cs with
  | node4 es => exact ⟨hshape.replace c y, by simpa [setChild, Occupied] using hocc⟩
  | node16 es => exact ⟨hshape.replace c y, by simpa [setChild, Occupied] using hocc⟩
  -- ==> the larger layouts count their children, so the count has to be compared
  | node48 n keys slots =>
    have hslot := hshape.1.slot_set (ne_zero_of_some hc) (some y)
    have hlen := length_of_update_some (lists_slot keys slots) (lists_of_slot hslot) hc
    refine ⟨⟨hshape.1.set hc y, ?_⟩, ?_⟩
    · rw [hlen]
      exact hshape.2
    · simp only [setChild, Occupied] at hocc ⊢
      rw [hlen]
      exact hocc
  | node256 n children =>
    have hlen := length_of_update_some (lists_entriesOf nodup_allBytes mem_allBytes children)
      (lists_entriesOf nodup_allBytes mem_allBytes (Function.update children c (some y))) hc
    refine ⟨?_, ?_⟩
    · simp only [setChild, Shape] at hshape ⊢
      rw [hlen]
      exact hshape
    · simp only [setChild, Occupied] at hocc ⊢
      rw [hlen]
      exact hocc

/-! ### A new child -/

section AddChild

/-- A node256 takes a child under a free byte and keeps its shape. -/
theorem shape_addChild256 {children : UInt8 → Option α} (h : (node256 n children).Shape)
    (hc : children c = none) (x : α) : (addChild256 n children c x).Shape := by
  have hlen := length_of_update (lists_entriesOf nodup_allBytes mem_allBytes children)
    (lists_entriesOf nodup_allBytes mem_allBytes (Function.update children c (some x))) hc
  unfold addChild256
  simp only [Shape] at h ⊢
  rw [hlen, ofNat_succ, h]

/-- With the child it has the 38 children that its layout asks for. -/
theorem occupied_addChild256 {children : UInt8 → Option α} (hc : children c = none) (x : α)
    (hocc : 37 ≤ (entriesOf children allBytes).length) : (addChild256 n children c x).Occupied := by
  have hlen := length_of_update (lists_entriesOf nodup_allBytes mem_allBytes children)
    (lists_entriesOf nodup_allBytes mem_allBytes (Function.update children c (some x))) hc
  unfold addChild256
  simp only [Occupied]
  omega

/-- A node48 takes the child into an empty slot, or becomes a node256. -/
theorem addChild48_spec (h : (node48 n keys slots).Shape) (hc : slot keys slots c = none)
    (hlow : 12 ≤ (entriesOf (slot keys slots) allBytes).length)
    (hhigh : (entriesOf (slot keys slots) allBytes).length ≤ 48) (x : α) :
    (addChild48 n keys slots c x).Valid
      ∧ (fun d => (addChild48 n keys slots c x).findChild d)
        = Function.update (slot keys slots) c (some x) := by
  obtain ⟨hlinked, hn⟩ := h
  unfold addChild48
  rw [hn]
  split
  -- ==> there is a free slot, which the loop over the slots finds
  case isTrue hlt =>
    rw [ofNat_lt_48_iff hhigh] at hlt
    obtain ⟨hpos, hempty⟩ := hlinked.exists_empty hlt
    have hslot := hlinked.slot_fill hpos hempty (c := c) x
    have hlen := length_of_update (lists_slot keys slots) (lists_of_slot hslot) hc
    refine ⟨⟨⟨hlinked.fill hpos hempty hc x, ?_⟩, ?_⟩, hslot⟩
    · rw [hlen, ofNat_succ]
    · simp only [Occupied]
      omega
  -- ==> the node is full: its children are copied to a node256
  case isFalse hge =>
    rw [ofNat_lt_48_iff hhigh] at hge
    have hshape : (node256 (UInt8.ofNat (entriesOf (slot keys slots) allBytes).length)
        (slot keys slots)).Shape := rfl
    exact ⟨⟨shape_addChild256 hshape hc x, occupied_addChild256 hc x (by omega)⟩, rfl⟩

/-- `add_child16` puts the child into the array, or turns a full node into a node48 and puts it
    there. -/
theorem addChild16_spec (h : Distinct es) (hc : es.lookup c = none) (hlow : 3 ≤ es.length)
    (hhigh : es.length ≤ 16) (x : α) :
    (addChild16 es c x).Valid
      ∧ (fun d => (addChild16 es c x).findChild d)
        = Function.update (fun d => es.lookup d) c (some x) := by
  unfold addChild16
  split
  case isTrue hlt =>
    refine ⟨⟨h.insertBefore (signedLess c) hc x, ?_⟩, lookup_insertBefore h (signedLess c) hc x⟩
    simp only [Occupied, length_insertBefore]
    omega
  -- ==> the node is full: its children are copied to a node48, which has as many
  case isFalse hge =>
    obtain ⟨hlinked, hslot, -⟩ := linked_compact h (by omega)
    have hlen : (entriesOf (slot (compact es).1 (compact es).2) allBytes).length = es.length := by
      have hl := lists_slot (compact es).1 (compact es).2
      have hperm : (entriesOf (slot (compact es).1 (compact es).2) allBytes).Perm es := by
        rw [List.perm_ext_iff_of_nodup hl.distinct.nodup h.nodup]
        rintro ⟨d, y⟩
        rw [hl.mem_iff, hslot, h.lookup_iff]
      exact hperm.length_eq
    have hspec := addChild48_spec (n := UInt8.ofNat es.length) (c := c)
      ⟨hlinked, by rw [hlen]⟩ ((congrFun hslot c).trans hc) (by omega) (by omega) x
    rwa [hslot] at hspec

/-- `add_child4` does the same, with a node16 for a full node. -/
theorem addChild4_spec (h : Distinct es) (hc : es.lookup c = none) (hlow : 1 ≤ es.length)
    (hhigh : es.length ≤ 4) (x : α) :
    (addChild4 es c x).Valid
      ∧ (fun d => (addChild4 es c x).findChild d)
        = Function.update (fun d => es.lookup d) c (some x) := by
  unfold addChild4
  split
  case isTrue hlt =>
    refine ⟨⟨h.insertBefore _ hc x, ?_⟩, lookup_insertBefore h _ hc x⟩
    simp only [Occupied, length_insertBefore]
    omega
  case isFalse hge => exact addChild16_spec h hc (by omega) (by omega) x

/-- A child under a new byte: nothing else changes, and the table stays valid. -/
theorem addChild_spec (h : cs.Valid) (hc : cs.findChild c = none) (x : α) :
    (cs.addChild c x).Valid
      ∧ (fun d => (cs.addChild c x).findChild d)
        = Function.update (fun d => cs.findChild d) c (some x) := by
  obtain ⟨hshape, hocc⟩ := h
  cases cs with
  | node4 es => exact addChild4_spec hshape hc (by have := hocc.1; omega) hocc.2 x
  | node16 es => exact addChild16_spec hshape hc (by have := hocc.1; omega) hocc.2 x
  | node48 n keys slots => exact addChild48_spec hshape hc (by have := hocc.1; omega) hocc.2 x
  | node256 n children =>
    refine ⟨⟨shape_addChild256 hshape hc x, occupied_addChild256 hc x ?_⟩, rfl⟩
    simp only [Occupied] at hocc
    omega

/-- The node4 that a split makes, with its two children. -/
theorem pair_spec (hcd : c ≠ d) (x y : α) :
    (((node4 []).addChild c x).addChild d y).Valid
      ∧ (fun b => (((node4 []).addChild c x).addChild d y).findChild b)
        = Function.update (Function.update (fun _ => none) c (some x)) d (some y) := by
  have hone : (node4 ([] : List (UInt8 × α))).addChild c x = node4 [(c, x)] := by
    simp [addChild, addChild4, insertBefore]
  have hlook : (fun b => [(c, x)].lookup b) = Function.update (fun _ => none) c (some x) :=
    lookup_cons_eq (c, x) []
  rw [hone]
  have hnone : [(c, x)].lookup d = none := by
    rw [congrFun hlook d, Function.update_of_ne hcd.symm]
  have hdistinct : Distinct [(c, x)] := by simp [Distinct]
  have hspec := addChild4_spec hdistinct hnone (by simp) (by simp) y
  rwa [hlook] at hspec

end AddChild

/-! ### A child taken out -/

section RemoveChild

/-- `remove_child16` takes the child out, and turns a node with three left into a node4. -/
theorem removeChild16_spec (h : Distinct es) (hc : es.lookup c = some x) (hlow : 4 ≤ es.length)
    (hhigh : es.length ≤ 16) :
    (removeChild16 es c).Valid
      ∧ (fun d => (removeChild16 es c).findChild d)
        = Function.update (fun d => es.lookup d) c none := by
  have hlen := length_remove (mem_map_fst (mem_of_lookup hc))
  have hdistinct : Distinct (remove c es) := h.sublist (remove_sublist c es)
  simp only [removeChild16]
  split
  · refine ⟨⟨hdistinct, ?_⟩, lookup_remove h c⟩
    simp only [Occupied]
    omega
  · refine ⟨⟨hdistinct, ?_⟩, lookup_remove h c⟩
    simp only [Occupied]
    omega

/-- `remove_child48` takes it out, and turns a node with twelve left into a node16. -/
theorem removeChild48_spec (h : (node48 n keys slots).Valid) (hc : slot keys slots c = some x) :
    (removeChild48 n keys slots c).Valid
      ∧ (fun d => (removeChild48 n keys slots c).findChild d)
        = Function.update (slot keys slots) c none := by
  obtain ⟨⟨hlinked, hn⟩, hocc⟩ := h
  have hslot := hlinked.slot_clear hc
  have hlen := length_of_update_none (lists_slot keys slots) (lists_of_slot hslot) hc
  have hnew := (lists_slot (Function.update keys c 0)
    (slots.set ((keys c).toNat - 1) (none : Option α))).distinct
  simp only [Occupied] at hocc
  unfold removeChild48
  rw [hn, ← hlen, ofNat_succ_sub_one]
  split
  -- ==> twelve are left: they are copied to a node16 in the order of their bytes
  case isTrue htwelve =>
    refine ⟨⟨hnew, ?_⟩, ?_⟩
    · have hcount := congrArg UInt8.toNat htwelve
      rw [toNat_ofNat_of_le (by omega)] at hcount
      have h12 : (12 : UInt8).toNat = 12 := rfl
      simp only [Occupied]
      omega
    · rw [← hslot]
      funext d
      apply Option.ext
      intro y
      rw [findChild_node16, hnew.lookup_iff, (lists_slot _ _).mem_iff]
  -- ==> the node stays; with another number than twelve left it has at least 13
  case isFalse htwelve =>
    refine ⟨⟨⟨hlinked.clear hc, rfl⟩, ?_⟩, hslot⟩
    have hne : (entriesOf (slot (Function.update keys c 0)
        (slots.set ((keys c).toNat - 1) (none : Option α))) allBytes).length ≠ 12 := by
      intro heq
      exact htwelve (by rw [heq]; rfl)
    simp only [Occupied]
    omega

/-- `remove_child256` takes it out, and turns a node with 37 left into a node48. -/
theorem removeChild256_spec {children : UInt8 → Option α} (h : (node256 n children).Valid)
    (hc : children c = some x) :
    (removeChild256 n children c).Valid
      ∧ (fun d => (removeChild256 n children c).findChild d)
        = Function.update children c none := by
  obtain ⟨hn, hocc⟩ := h
  have hnew := lists_entriesOf nodup_allBytes mem_allBytes (Function.update children c none)
  have hlen := length_of_update_none (lists_entriesOf nodup_allBytes mem_allBytes children) hnew hc
  have hle := length_entriesOf_le children
  simp only [Shape] at hn
  simp only [Occupied] at hocc
  unfold removeChild256
  rw [hn, ← hlen, ofNat_succ_sub_one]
  split
  case isTrue h37 =>
    -- the count is a byte, but there are at most 255 children left
    have hcount : (entriesOf (Function.update children c none) allBytes).length = 37 := by
      have := congrArg UInt8.toNat h37
      rw [UInt8.toNat_ofNat'] at this
      have h37' : (37 : UInt8).toNat = 37 := rfl
      omega
    obtain ⟨hlinked, hslot, -⟩ := linked_compact hnew.distinct (by omega)
    have hfun : slot (compact (entriesOf (Function.update children c none) allBytes)).1
        (compact (entriesOf (Function.update children c none) allBytes)).2
        = Function.update children c none := by
      rw [hslot]
      funext d
      apply Option.ext
      intro y
      rw [hnew.distinct.lookup_iff, hnew.mem_iff]
    refine ⟨⟨⟨hlinked, by rw [hfun]⟩, ?_⟩, hfun⟩
    simp only [Occupied, hfun]
    omega
  case isFalse h37 =>
    refine ⟨⟨rfl, ?_⟩, rfl⟩
    have hne : (entriesOf (Function.update children c none) allBytes).length ≠ 37 := by
      intro heq
      exact h37 (by rw [heq]; rfl)
    simp only [Occupied]
    omega

/-- A child taken out: nothing else changes, and the table stays valid, unless it is a node4 with
    one child left. -/
theorem removeChild_spec (h : cs.Valid) (hc : cs.findChild c = some x)
    (htwo : ∀ es, cs = node4 es → 2 < es.length) :
    (cs.removeChild c).Valid
      ∧ (fun d => (cs.removeChild c).findChild d)
        = Function.update (fun d => cs.findChild d) c none := by
  cases cs with
  | node4 es =>
    have hlen := length_remove (mem_map_fst (mem_of_lookup hc))
    have hlong := htwo es rfl
    have hocc := h.occupied.2
    refine ⟨⟨Distinct.sublist h.shape (remove_sublist c es), ?_⟩, lookup_remove h.shape c⟩
    simp only [removeChild, Occupied]
    omega
  | node16 es => exact removeChild16_spec h.shape hc h.occupied.1 h.occupied.2
  | node48 n keys slots => exact removeChild48_spec h hc
  | node256 n children => exact removeChild256_spec h hc

end RemoveChild

/-! ### Order -/

/-- The bytes stand in their order. -/
def Ordered (cs : Children α) : Prop :=
  (cs.entries.map Prod.fst).Pairwise (· < ·)

theorem lt_of_not_lt_of_ne {a b : UInt8} (h : ¬ a < b) (hne : a ≠ b) : b < a :=
  UInt8.lt_of_le_of_ne (UInt8.not_lt.mp h) hne.symm

/-- On bytes below 128 the signed comparison is the unsigned one. -/
theorem signedLess_iff {k : UInt8} (hc : c < 128) (hk : k < 128) :
    signedLess c k = true ↔ c < k := by
  have htoInt : ∀ b : UInt8, b < 128 → b.toInt8.toInt = b.toNat := by
    intro b hb
    rw [UInt8.lt_iff_toNat_lt] at hb
    have hb' : b.toNat < 128 := hb
    show b.toBitVec.toInt = b.toNat
    rw [BitVec.toInt_eq_toNat_of_lt]
    · rfl
    · show 2 * b.toNat < 2 ^ 8
      omega
  unfold signedLess
  rw [decide_eq_true_iff, Int8.lt_iff_toInt_lt, htoInt c hc, htoInt k hk, UInt8.lt_iff_toNat_lt]
  omega

/-- Put before the first greater byte, a new byte keeps the bytes in order. -/
theorem pairwise_insert {p : UInt8 → Bool} (hp : ∀ e ∈ es, p e.1 = true ↔ c < e.1)
    (hc : es.lookup c = none) (hes : (es.map Prod.fst).Pairwise (· < ·)) (x : α) :
    ((insertBefore p (c, x) es).map Prod.fst).Pairwise (· < ·) := by
  refine pairwise_insertBefore (r := (· < ·)) UInt8.lt_trans p
    (fun e he htest => (hp e he).mp htest) ?_ hes x
  intro e he htest
  have hne : c ≠ e.1 := by
    rintro rfl
    exact lookup_eq_none.mp hc (List.mem_map_of_mem he)
  refine lt_of_not_lt_of_ne (fun hlt => ?_) hne
  rw [(hp e he).mpr hlt] at htest
  cases htest

/-- The bytes of a node stay in order, where all are below 128: `add_child16` compares them as
    signed. -/
theorem ordered_addChild (h : cs.Ordered) (hlow : ∀ e ∈ cs.entries, e.1 < 128) (hc128 : c < 128)
    (hc : cs.findChild c = none) (x : α) : (cs.addChild c x).Ordered := by
  -- the two larger layouts are in order by themselves
  have h48 : ∀ n keys (slots : List (Option α)), (addChild48 n keys slots c x).Ordered := by
    intro n keys slots
    unfold addChild48
    split
    · exact pairwise_entriesOf pairwise_allBytes _
    · exact pairwise_entriesOf pairwise_allBytes _
  -- bytes below 128 are compared as signed in the same order as unsigned
  have h16 : ∀ es : List (UInt8 × α), (∀ e ∈ es, e.1 < 128) → es.lookup c = none →
      (es.map Prod.fst).Pairwise (· < ·) → (addChild16 es c x).Ordered := by
    intro es hlow hc hes
    unfold addChild16
    split
    · exact pairwise_insert (fun e he => signedLess_iff hc128 (hlow e he)) hc hes x
    · exact h48 ..
  cases cs with
  | node4 es =>
    simp only [addChild, addChild4]
    split
    · exact pairwise_insert (p := fun k => c < k) (fun e he => decide_eq_true_iff) hc h x
    · exact h16 es hlow hc h
  | node16 es => exact h16 es hlow hc h
  | node48 n keys slots => exact h48 n keys slots
  | node256 n children => exact pairwise_entriesOf pairwise_allBytes _

/-- Replacing a child keeps the order. -/
theorem ordered_setChild (h : cs.Ordered) (c : UInt8) (y : α) : (cs.setChild c y).Ordered := by
  cases cs with
  | node4 es =>
    simp only [Ordered, setChild, entries_node4, map_fst_replace]
    exact h
  | node16 es =>
    simp only [Ordered, setChild, entries_node16, map_fst_replace]
    exact h
  | node48 n keys slots => exact pairwise_entriesOf pairwise_allBytes _
  | node256 n children => exact pairwise_entriesOf pairwise_allBytes _

/-- So does removing one, whatever layout the node has afterwards. -/
theorem ordered_removeChild (h : cs.Ordered) (c : UInt8) : (cs.removeChild c).Ordered := by
  -- removing from a sorted array leaves it sorted
  have hsub : ∀ es : List (UInt8 × α), (es.map Prod.fst).Pairwise (· < ·) →
      ((remove c es).map Prod.fst).Pairwise (· < ·) :=
    fun es hes => hes.sublist ((remove_sublist c es).map Prod.fst)
  cases cs with
  | node4 es => exact hsub es h
  | node16 es =>
    simp only [removeChild, removeChild16]
    split
    · exact hsub es h
    · exact hsub es h
  | node48 n keys slots =>
    simp only [removeChild, removeChild48]
    split
    · exact pairwise_entriesOf pairwise_allBytes _
    · exact pairwise_entriesOf pairwise_allBytes _
  | node256 n children =>
    simp only [removeChild, removeChild256]
    split
    · exact pairwise_entriesOf pairwise_allBytes _
    · exact pairwise_entriesOf pairwise_allBytes _

end Children

end Niuchacz.Art
