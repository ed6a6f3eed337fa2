import Niuchacz.DoublyLinkedList.Preserve

namespace Niuchacz.DoublyLinkedList.Concurrent

open Lib.LinkedRing Lib.Locks Lib.Transition

/-!
# Reference-count safety

Every step of disciplined threads keeps `Inv`, as long as no reference count overflows.

* `inv_start`, `inv_call`, `inv_go`, `inv_run` — the invariant holds in every state reached.
* `refcount_safe` — entries are freed once and without holders, `doublylinkedlistFind` returns
  entries of the active ring, and a ring is well formed whenever its lock is free.
* `freed_while_held` — with `2 ^ 32 + 1` references to one entry the count is 1 again, and the
  entry is freed while all but one of them are still held.
-/

variable {ι : Type} [DecidableEq ι] {s : State ι} {t : ι} {p p' : Pc} {q : Ptr} {side : Side}

/-! ### What the invariant gives a thread -/

omit [DecidableEq ι] in
/-- A ring is well formed for the owner of its lock outside of a link update. -/
theorem Inv.ring_of_holds (hinv : Inv s) (side : Side) (hp : s.pc t = p) (hh : p.holds side = true)
    (hw : p.work side = .none) : s.sh.heap.Ring (s.sh.head side) (s.sh.ring side) := by
  have h := hinv.rings side
  rw [State.work, viewOf_owner hinv.excl (t := t) (by rw [hp]; exact hh), hp, hw] at h
  exact h

omit [DecidableEq ι] in
/-- A ring is well formed while its lock is free. -/
theorem Inv.ring_of_free (hinv : Inv s) (hl : s.sh.lock side = none) :
    s.sh.heap.Ring (s.sh.head side) (s.sh.ring side) := by
  have h := hinv.rings side
  rw [State.work, viewOf_free hl] at h
  exact h

omit [DecidableEq ι] in
/-- An entry's count is zero exactly if nobody holds it. -/
theorem Inv.references_eq_zero (hinv : Inv s) (hentry : (s.sh.place q).isEntry = true) :
    s.sh.heap.references q = 0 ↔ NoHolder s.sh q := by
  have hcount := hinv.refs q hentry
  constructor
  · intro h0 y hy he
    rw [h0] at hcount
    have h := List.countP_eq_zero.mp hcount.symm y hy
    simp [he] at h
  · intro hno
    apply UInt32.toNat_inj.mp
    rw [hcount]
    exact List.countP_eq_zero.mpr (fun y hy => by simpa using hno y hy)

omit [DecidableEq ι] in
theorem Inv.isEntry_of_mem (hinv : Inv s) (hq : q ∈ s.sh.ring side) :
    (s.sh.place q).isEntry = true := by
  rw [(hinv.mem side q).mp hq]
  rfl

/-! ### Locks -/

theorem forall_side {P : Side → Prop} (ha : P .active) (hd : P .deleted) : ∀ k, P k
  | .active => ha
  | .deleted => hd

theorem forall_ne_active {P : Side → Prop} (hd : P .deleted) : ∀ k, k ≠ .active → P k
  | .active, hk => absurd rfl hk
  | .deleted, _ => hd

theorem forall_ne_deleted {P : Side → Prop} (ha : P .active) : ∀ k, k ≠ .deleted → P k
  | .active, _ => ha
  | .deleted, hk => absurd rfl hk

/-- A move between points at which the thread has no entry of its own and no target. -/
theorem Moves.plain (hw : ∀ k, p.work k = .none) (ho : p'.own = none) (ht : p'.target = none)
    (ha : p.adding = none) : Moves p p' where
  quiet := hw
  own := fun q hq => by rw [ho] at hq; cases hq
  target := fun q hq => by rw [ht] at hq; cases hq
  adding := fun q hq => by rw [ha] at hq; cases hq

/-- A step that changes only the program point. -/
theorem Inv.stay (hinv : Inv s) (hp : s.pc t = p) (hm : Moves p p')
    (hholds : ∀ k, p'.holds k = p.holds k)
    (hwork : ∀ k, p'.work k = .none ∨
      (p'.holds k = true ∧ WorkOk s.sh.heap (s.sh.head k) (s.sh.ring k) (p'.work k)))
    (hknows : Knows s.sh t p') : Inv (s.apply t (s.sh, p')) :=
  hinv.move hp hm (fun k => Effect.stay rfl (hholds k)) hwork hknows

/-- Taking a free lock. -/
theorem Inv.lock (hinv : Inv s) (hp : s.pc t = p) {o : Shared ι × Pc}
    (h : lockThen s.sh side t p' = some o) (hm : Moves p p')
    (hholds : p'.holds side = true) (hne : ∀ k, k ≠ side → p'.holds k = p.holds k)
    (hwork : ∀ k, p'.work k = .none ∨ (k = side ∧
      (s.sh.heap.Ring (s.sh.head k) (s.sh.ring k) →
        WorkOk s.sh.heap (s.sh.head k) (s.sh.ring k) (p'.work k))))
    (hknows : Knows s.sh t p') : Inv (s.apply t o) := by
  obtain ⟨hl, rfl⟩ := lockThen_eq_some_iff.mp h
  refine hinv.move hp hm (fun k => Effect.take hl hholds (hne k)) ?_ hknows
  intro k
  rcases hwork k with hw | ⟨rfl, hw⟩
  · exact Or.inl hw
  · exact Or.inr ⟨hholds, hw (hinv.ring_of_free hl)⟩

/-- Giving up a lock. -/
theorem Inv.unlock (hinv : Inv s) (hp : s.pc t = p) (hm : Moves p p')
    (hholds : p.holds side = true) (hholds' : p'.holds side = false)
    (hne : ∀ k, k ≠ side → p'.holds k = p.holds k) (hwork : ∀ k, p'.work k = .none)
    (hknows : Knows s.sh t p') : Inv (s.apply t (s.sh.unlock side, p')) :=
  hinv.move hp hm (fun k => Effect.drop hholds hholds' (hne k)) (fun k => Or.inl (hwork k)) hknows

/-! ### One step -/

omit [DecidableEq ι] in
/-- A new list satisfies the invariant. -/
theorem inv_start (h : Heap) (plist : Ptr) : Inv (start ι h plist) := by
  have hne : deletedEntries plist ≠ plist := by
    simp [deletedEntries]
  -- nothing has been allocated, so there is no entry anywhere
  have hplace : ∀ x, ((start ι h plist).sh.place x).isEntry = false := by
    intro x
    simp only [start]
    split
    · rfl
    · split <;> rfl
  constructor
  case excl => exact fun k t => by cases k <;> simp [start, Pc.holds]
  case heads =>
    intro k x
    simp only [start]
    cases k with
    | active =>
      by_cases hx : x = plist
      · simp [hx, Shared.head]
      · by_cases hd : x = deletedEntries plist <;> simp [hx, hd, Shared.head, hne]
    | deleted =>
      by_cases hx : x = plist
      · simp [hx, Shared.head, Ne.symm hne]
      · by_cases hd : x = deletedEntries plist <;> simp [hx, hd, Shared.head, hne]
  case mem =>
    intro k x
    have h := hplace x
    constructor
    · intro hx
      cases hx
    · intro hx
      rw [hx] at h
      cases h
  case rings =>
    intro k
    rw [State.work, viewOf_free rfl]
    refine ring_nil ?_ ?_ <;> cases k <;>
      simp [start, Shared.head, doublylinkedlistAlloc, entryHeaderInit, Heap.setNext,
        Heap.setPrev, Ne.symm hne]
  case alloc =>
    intro x
    rw [hplace x]
    rfl
  case own => exact fun t p hp => by cases hp
  case target => exact fun t p hp => by cases hp
  case targetInj => exact fun t u p hp => by cases hp
  case flags =>
    intro x hx
    have h := hplace x
    rw [hx] at h
    cases h
  case refs =>
    intro x hx
    rw [hplace x] at hx
    cases hx
  case held => exact fun y hy => by cases hy
  case placed =>
    intro x hx
    rw [hplace x] at hx
    cases hx
  case knows => exact fun t => trivial

/-- **Step, calls.** -/
theorem inv_call (hinv : Inv s) (hp : s.pc t = .idle) (c : Call)
    (hd : Disciplined s (t, .call c)) {o : Shared ι × Pc} (h : stepCall s.sh t c = some o) :
    Inv (s.apply t o) := by
  match c with
  | .add key data none =>
    cases h
    exact hinv.stay hp (.plain (fun _ => rfl) rfl rfl rfl) (fun _ => rfl) (fun _ => Or.inl rfl)
      trivial
  | .add key data (some q) =>
    simp only [stepCall] at h
    split at h
    · cases h
    · rename_i hc
      cases h
      simp only [Bool.or_eq_true, decide_eq_true_eq, not_or, Bool.not_eq_true] at hc
      -- `malloc` returns an address that is neither in use nor a head of the list
      exact hinv.add hp key data hc.1.1 hc.1.2 hc.2
  | .find key =>
    cases h
    exact hinv.stay hp (.plain (fun _ => rfl) rfl rfl rfl) (fun _ => rfl) (fun _ => Or.inl rfl)
      trivial
  | .release q =>
    cases h
    exact hinv.release hp hd
  | .del q =>
    cases h
    exact hinv.delete hp hd.1 hd.2
  | .freeDeletedEntries =>
    cases h
    exact hinv.stay hp (.plain (fun _ => rfl) rfl rfl rfl) (fun _ => rfl) (fun _ => Or.inl rfl)
      trivial

/-! ### `doublylinkedlistAdd` and `doublylinkedlistFind` -/

/-- The program points around a write of an insertion into the active ring. -/
theorem links_addLink (q : Ptr) (n : ℕ) :
    Links .active q n (.addLink q n) (if n < 3 then .addLink q (n + 1) else .addUnlock q) := by
  rcases Nat.lt_or_ge n 3 with hn | hn
  · rw [if_pos hn]
    refine ⟨rfl, fun _ => rfl, fun _ => rfl, fun _ => by simp [Pc.work, hn], rfl, ?_, rfl, ?_⟩
    · have hiff : n + 1 ≤ 2 ↔ n < 2 := Nat.lt_iff_add_one_le.symm
      simp [Pc.own, hiff]
    · intro x hx
      -- with its third write the entry is on the ring
      by_cases h2 : n = 2
      · exact Or.inr ⟨rfl, h2⟩
      · left
        simp only [Pc.adding, if_pos (show n ≤ 2 by omega)] at hx
        simp only [Pc.adding, if_pos (show n + 1 ≤ 2 by omega)]
        exact hx
  · have h3 : ¬ n < 3 := by omega
    have h2 : ¬ n ≤ 2 := by omega
    have h2' : ¬ n < 2 := by omega
    rw [if_neg h3]
    refine ⟨rfl, fun _ => rfl, fun _ => rfl, fun _ => by simp [Pc.work, h3], rfl, ?_, rfl, ?_⟩
    · simp [Pc.own, h2']
    · intro x hx
      simp [Pc.adding, h2] at hx

/-- One of the four stores of `doublylinkedlistAdd` that put the entry on the active ring. -/
theorem Inv.addLink (hinv : Inv s) {n : ℕ} (hp : s.pc t = .addLink q n) :
    Inv (s.apply t
      (s.sh.link .active q n, if n < 3 then .addLink q (n + 1) else .addUnlock q)) := by
  have hk : Knows s.sh t (.addLink q n) := by rw [← hp]; exact hinv.knows t
  refine hinv.link hp (links_addLink q n) (fun he => by cases he) ?_
  by_cases hn : n < 3
  · rw [if_pos hn]
    exact fun h2 => hk (by omega)
  · rw [if_neg hn]
    trivial

/-- The loop of `doublylinkedlistFind` goes on from an entry that does not match. -/
theorem Inv.findNext (hinv : Inv s) {key : UInt64} (hp : s.pc t = .findTest key q)
    (hne : q ≠ s.sh.plist) : Inv (s.apply t (s.sh, .findTest key (s.sh.heap.next q))) := by
  have hk : Knows s.sh t (.findTest key q) := by rw [← hp]; exact hinv.knows t
  have hr := hinv.ring_of_holds .active hp rfl rfl
  refine hinv.stay hp (.plain (fun _ => rfl) rfl rfl rfl) (fun _ => rfl) (fun _ => Or.inl rfl) ?_
  exact hr.next_mem_cons ((List.mem_cons.mp hk).resolve_left hne)

/-! ### `doublylinkedlistDel` -/

/-- The program points around a write of an insertion into the deleted ring. -/
theorem links_delLink (q : Ptr) (n : ℕ) :
    Links .deleted q n (.delLink q n)
      (if n < 3 then .delLink q (n + 1) else .delUnlockDeleted q) := by
  rcases Nat.lt_or_ge n 3 with hn | hn
  · rw [if_pos hn]
    have hiff : n + 1 ≤ 2 ↔ n < 2 := Nat.lt_iff_add_one_le.symm
    exact ⟨rfl, fun _ => rfl, fun _ => rfl, fun _ => by simp [Pc.work, hn], rfl,
      by simp [Pc.own, hiff], rfl, fun x hx => by cases hx⟩
  · have h3 : ¬ n < 3 := by omega
    have h2 : ¬ n < 2 := by omega
    rw [if_neg h3]
    exact ⟨rfl, fun _ => rfl, fun _ => rfl, fun _ => by simp [Pc.work, h3], rfl,
      by simp [Pc.own, h2], rfl, fun x hx => by cases hx⟩

/-- One of the four stores of `doublylinkedlistDel` that put the entry on the deleted ring. -/
theorem Inv.delLink (hinv : Inv s) {n : ℕ} (hp : s.pc t = .delLink q n) :
    Inv (s.apply t
      (s.sh.link .deleted q n, if n < 3 then .delLink q (n + 1) else .delUnlockDeleted q)) := by
  have hk : Knows s.sh t (.delLink q n) := by rw [← hp]; exact hinv.knows t
  refine hinv.link hp (links_delLink q n) (fun _ => hk) ?_
  by_cases hn : n < 3
  · rw [if_pos hn]
    intro h2
    show (linkWrite s.sh.heap (s.sh.head .deleted) q n).isDeleted q = true
    rw [(sameEntries_linkWrite _ _ _ _).2.2.1]
    exact hk (by omega)
  · rw [if_neg hn]
    trivial

/-- The program points around a write of a removal from the active ring. -/
theorem unlinks_delUnlink (q : Ptr) (n : ℕ) :
    Unlinks .active q n (.delUnlink q n) (if n < 3 then .delUnlink q (n + 1) else .delTest q) := by
  have hown : n ≠ 0 → (Pc.delUnlink q n).own = some q := fun hn => if_neg hn
  have htarget : Side.active = .active → n = 0 → (Pc.delUnlink q n).target = some q :=
    fun _ hn => if_pos hn
  by_cases hn : n < 3
  · rw [if_pos hn]
    exact ⟨rfl, fun _ => rfl, fun _ => rfl, fun _ => by simp [Pc.work, hn], hown, rfl, htarget,
      rfl, rfl⟩
  · rw [if_neg hn]
    exact ⟨rfl, fun _ => rfl, fun _ => rfl, fun _ => by simp [Pc.work, hn], hown, rfl, htarget,
      rfl, rfl⟩

/-- One of the four stores that take it off the active ring before. -/
theorem Inv.delUnlink (hinv : Inv s) {n : ℕ} (hp : s.pc t = .delUnlink q n) :
    Inv (s.apply t
      (s.sh.unlink t .active q n, if n < 3 then .delUnlink q (n + 1) else .delTest q)) := by
  have hk : Knows s.sh t (.delUnlink q n) := by rw [← hp]; exact hinv.knows t
  refine hinv.unlink hp (unlinks_delUnlink q n) ?_
  by_cases hn : n < 3
  · rw [if_pos hn]
    exact hk
  · rw [if_neg hn]
    exact hk

/-- The caller holds a reference, so `doublylinkedlistDel` finds a positive count. -/
theorem Inv.delTest (hinv : Inv s) (hp : s.pc t = .delTest q) :
    Inv (s.apply t (s.sh, if s.sh.heap.references q > 0 then .delMark q else .delUnlock q)) := by
  have hheld : (t, q) ∈ s.sh.holders := by
    have hk : Knows s.sh t (.delTest q) := by rw [← hp]; exact hinv.knows t
    exact hk
  have hpos : s.sh.heap.references q > 0 := by
    have hne : s.sh.heap.references q ≠ 0 := by
      rw [Ne, hinv.references_eq_zero (hinv.held _ hheld)]
      exact fun hno => hno _ hheld rfl
    exact UInt32.pos_iff_ne_zero.mpr hne
  rw [if_pos hpos]
  exact hinv.stay hp ⟨fun _ => rfl, fun _ h => h, fun _ h => h, fun _ h => h⟩ (fun _ => rfl)
    (fun _ => Or.inl rfl) trivial

/-! ### `doublylinkedlistFreeDeletedEntries` -/

/-- The sweep begins with the entries of the deleted ring that nobody holds. -/
theorem Inv.sweepLock (hinv : Inv s) (hp : s.pc t = .sweepLock) {o : Shared ι × Pc}
    (h : lockThen s.sh .deleted t
      (.sweepStart ((s.sh.ring .deleted).filter (s.sh.heap.references · = 0))) = some o) :
    Inv (s.apply t o) := by
  refine hinv.lock hp h (.plain (fun _ => rfl) rfl rfl rfl) rfl (forall_ne_deleted rfl)
    (fun _ => Or.inl rfl) ?_
  intro x hx
  obtain ⟨hmem, h0⟩ := List.mem_filter.mp hx
  exact ⟨hmem, (hinv.references_eq_zero (hinv.isEntry_of_mem hmem)).mp (by simpa using h0)⟩

theorem Inv.sweepStart (hinv : Inv s) {due : List Ptr} (hp : s.pc t = .sweepStart due) :
    Inv (s.apply t (s.sh, .sweepTest due (s.sh.heap.next (s.sh.head .deleted)))) := by
  have hk : Knows s.sh t (.sweepStart due) := by rw [← hp]; exact hinv.knows t
  have hr := hinv.ring_of_holds .deleted hp rfl rfl
  refine hinv.stay hp (.plain (fun _ => rfl) rfl rfl rfl) (fun _ => rfl) (fun _ => Or.inl rfl) ?_
  exact ⟨[], s.sh.ring .deleted, rfl, hr.next_head, hk⟩

/-- At the end of the ring nothing is due. -/
theorem Inv.sweepEnd (hinv : Inv s) {due : List Ptr}
    (hp : s.pc t = .sweepTest due (s.sh.head .deleted)) :
    Inv (s.apply t (s.sh, .sweepUnlock due)) := by
  have hk : Knows s.sh t (.sweepTest due (s.sh.head .deleted)) := by
    rw [← hp]; exact hinv.knows t
  have hr := hinv.ring_of_holds .deleted hp rfl rfl
  refine hinv.stay hp (.plain (fun _ => rfl) rfl rfl rfl) (fun _ => rfl) (fun _ => Or.inl rfl) ?_
  obtain ⟨ys, zs, hring, hhead, hdue⟩ := hk
  have hzs : zs = [] := by
    cases zs with
    | nil => rfl
    | cons z zs =>
      -- the first entry of the rest would be the head of the ring
      have hmem : z ∈ s.sh.ring .deleted := by rw [hring]; simp
      exact absurd hhead.symm (hr.ne_head hmem)
  subst hzs
  show due = []
  rw [List.eq_nil_iff_forall_not_mem]
  intro x hx
  exact absurd (hdue x hx).1 (by simp)

/-- An entry of the deleted ring is marked, so the sweep looks at its count. -/
theorem Inv.sweepEntry (hinv : Inv s) {due : List Ptr} (hp : s.pc t = .sweepTest due q)
    (hne : q ≠ s.sh.head .deleted) :
    Inv (s.apply t
      (s.sh, if s.sh.heap.isDeleted q then .sweepLoad due q else .sweepNext due q)) := by
  have hk : Knows s.sh t (.sweepTest due q) := by rw [← hp]; exact hinv.knows t
  obtain ⟨ys, zs, hring, hhead, hdue⟩ := hk
  cases zs with
  | nil => exact absurd hhead hne
  | cons z zs =>
    have hq : q = z := hhead
    subst hq
    have hflag : s.sh.heap.isDeleted q = true :=
      hinv.flags q ((hinv.mem .deleted q).mp (by rw [hring]; simp))
    rw [if_pos hflag]
    exact hinv.stay hp (.plain (fun _ => rfl) rfl rfl rfl) (fun _ => rfl) (fun _ => Or.inl rfl)
      ⟨ys, zs, hring, hdue⟩

/-- Entries that nobody holds are freed, the others passed over. -/
theorem Inv.sweepLoad (hinv : Inv s) {due : List Ptr} (hp : s.pc t = .sweepLoad due q) :
    Inv (s.apply t
      (s.sh, if s.sh.heap.references q = 0 then .sweepSave due q else .sweepNext due q)) := by
  have hk : Knows s.sh t (.sweepLoad due q) := by rw [← hp]; exact hinv.knows t
  obtain ⟨ys, zs, hring, hdue⟩ := hk
  have hmem : q ∈ s.sh.ring .deleted := by rw [hring]; simp
  have hzero := hinv.references_eq_zero (hinv.isEntry_of_mem hmem)
  by_cases h0 : s.sh.heap.references q = 0
  · rw [if_pos h0]
    exact hinv.stay hp (.plain (fun _ => rfl) rfl rfl rfl) (fun _ => rfl) (fun _ => Or.inl rfl)
      ⟨hzero.mp h0, ys, zs, hring, hdue⟩
  · rw [if_neg h0]
    refine hinv.stay hp (.plain (fun _ => rfl) rfl rfl rfl) (fun _ => rfl) (fun _ => Or.inl rfl)
      ⟨ys, zs, hring, ?_⟩
    -- an entry with holders is not due
    intro x hx
    obtain ⟨hz, hno⟩ := hdue x hx
    refine ⟨(List.mem_cons.mp hz).resolve_left ?_, hno⟩
    rintro rfl
    exact h0 (hzero.mpr hno)

/-- It leaves an entry with references where it is and goes on. -/
theorem Inv.sweepNext (hinv : Inv s) {due : List Ptr} (hp : s.pc t = .sweepNext due q) :
    Inv (s.apply t (s.sh, .sweepTest due (s.sh.heap.next q))) := by
  have hk : Knows s.sh t (.sweepNext due q) := by rw [← hp]; exact hinv.knows t
  obtain ⟨ys, zs, hring, hdue⟩ := hk
  have hr := hinv.ring_of_holds .deleted hp rfl rfl
  rw [hring] at hr
  refine hinv.stay hp (.plain (fun _ => rfl) rfl rfl rfl) (fun _ => rfl) (fun _ => Or.inl rfl) ?_
  exact ⟨ys ++ [q], zs, by rw [hring]; simp, hr.next_mid, hdue⟩

/-- The next entry is remembered before the removal. -/
theorem Inv.sweepSave (hinv : Inv s) {due : List Ptr} (hp : s.pc t = .sweepSave due q) :
    Inv (s.apply t (s.sh, .sweepUnlink due q (s.sh.heap.next q) 0)) := by
  have hk : Knows s.sh t (.sweepSave due q) := by rw [← hp]; exact hinv.knows t
  obtain ⟨hno, ys, zs, hring, hdue⟩ := hk
  have hr := hinv.ring_of_holds .deleted hp rfl rfl
  have hmem : q ∈ s.sh.ring .deleted := by rw [hring]; simp
  have hwork : WorkOk s.sh.heap (s.sh.head .deleted) (s.sh.ring .deleted) (.unlink q 0) :=
    ⟨hmem, hr⟩
  rw [hring] at hr
  exact hinv.stay hp (.plain (fun _ => rfl) rfl rfl rfl) (fun _ => rfl)
    (forall_side (Or.inl rfl) (Or.inr ⟨rfl, hwork⟩)) ⟨hno, ys, zs, hring, hr.next_mid, hdue⟩

/-- The program points around a write of a removal from the deleted ring. -/
theorem unlinks_sweepUnlink (due : List Ptr) (q pnext : Ptr) (n : ℕ) :
    Unlinks .deleted q n (.sweepUnlink due q pnext n)
      (if n < 3 then .sweepUnlink due q pnext (n + 1) else .sweepFree due q pnext) := by
  have hown : n ≠ 0 → (Pc.sweepUnlink due q pnext n).own = some q := fun hn => if_neg hn
  have htarget : Side.deleted = .active → n = 0 →
      (Pc.sweepUnlink due q pnext n).target = some q := fun he => by cases he
  by_cases hn : n < 3
  · rw [if_pos hn]
    exact ⟨rfl, fun _ => rfl, fun _ => rfl, fun _ => by simp [Pc.work, hn], hown, rfl, htarget,
      rfl, rfl⟩
  · rw [if_neg hn]
    exact ⟨rfl, fun _ => rfl, fun _ => rfl, fun _ => by simp [Pc.work, hn], hown, rfl, htarget,
      rfl, rfl⟩

/-- One of the four stores by which it takes an entry off the ring. -/
theorem Inv.sweepUnlink (hinv : Inv s) {due : List Ptr} {pnext : Ptr} {n : ℕ}
    (hp : s.pc t = .sweepUnlink due q pnext n) :
    Inv (s.apply t (s.sh.unlink t .deleted q n,
      if n < 3 then .sweepUnlink due q pnext (n + 1) else .sweepFree due q pnext)) := by
  have hk : Knows s.sh t (.sweepUnlink due q pnext n) := by rw [← hp]; exact hinv.knows t
  obtain ⟨hno, ys, zs, hring, hnext, hdue⟩ := hk
  -- the first write takes the entry off the list, the others change nothing
  have hring' : (s.sh.unlink t .deleted q n).ring .deleted = ys ++ zs := by
    by_cases hn : n = 0
    · rw [if_pos hn] at hring
      have hwork := hinv.rings .deleted
      rw [State.work, viewOf_owner hinv.excl (t := t) (by rw [hp]; rfl), hp, hn, hring] at hwork
      have hoff := notMem_of_ring_mid hwork.2
      simp only [List.mem_cons, List.mem_append, not_or] at hoff
      simp only [Shared.unlink, hn, if_true, Function.update_self, hring]
      rw [List.erase_append_right _ hoff.2.1, List.erase_cons_head]
    · rw [if_neg hn] at hring
      simp only [Shared.unlink, hn, if_false]
      exact hring
  refine hinv.unlink hp (unlinks_sweepUnlink due q pnext n) ?_
  by_cases hn : n < 3
  · rw [if_pos hn]
    exact ⟨hno, ys, zs, hring', hnext, hdue⟩
  · rw [if_neg hn]
    exact ⟨hno, ys, zs, hring', hnext, hdue⟩

/-! ### Whole runs -/

/-- **Step, inside a function.** -/
theorem inv_go (hinv : Inv s) (hn : NoOverflow s (t, .go)) {o : Shared ι × Pc}
    (h : stepGo s.sh t (s.pc t) = some o) : Inv (s.apply t o) := by
  have hk := hinv.knows t
  cases hp : s.pc t with
  | idle => rw [hp] at h; cases h
  | addLock q =>
    rw [hp] at h hk
    exact hinv.lock hp h ⟨fun _ => rfl, fun _ h => h, fun _ h => h, fun _ h => h⟩ rfl
      (forall_ne_active rfl) (forall_side (Or.inr ⟨rfl, fun hr => hr⟩) (Or.inl rfl)) (fun _ => hk)
  | addLink q n => rw [hp] at h; cases h; exact hinv.addLink hp
  | addUnlock q =>
    rw [hp] at h
    cases h
    exact hinv.unlock hp (.plain (fun _ => rfl) rfl rfl rfl) rfl rfl (forall_ne_active rfl)
      (fun _ => rfl) trivial
  | findLock key =>
    rw [hp] at h
    exact hinv.lock hp h (.plain (fun _ => rfl) rfl rfl rfl) rfl (forall_ne_active rfl)
      (fun _ => Or.inl rfl) trivial
  | findStart key =>
    rw [hp] at h
    cases h
    have hr := hinv.ring_of_holds .active hp rfl rfl
    exact hinv.stay hp (.plain (fun _ => rfl) rfl rfl rfl) (fun _ => rfl) (fun _ => Or.inl rfl)
      hr.next_head_mem
  | findTest key q =>
    rw [hp] at h
    simp only [stepGo] at h
    by_cases hq : q = s.sh.plist
    · rw [if_pos hq] at h
      cases h
      exact hinv.stay hp (.plain (fun _ => rfl) rfl rfl rfl) (fun _ => rfl) (fun _ => Or.inl rfl)
        trivial
    · rw [if_neg hq] at h
      by_cases hkey : s.sh.heap.key q = key
      · rw [if_pos hkey] at h
        cases h
        -- the only step that counts a reference, where the count may not overflow
        exact hinv.hit hp hq (hn key q hp rfl hq hkey)
      · rw [if_neg hkey] at h
        cases h
        exact hinv.findNext hp hq
  | findUnlock r =>
    rw [hp] at h
    cases h
    exact hinv.unlock hp (.plain (fun _ => rfl) rfl rfl rfl) rfl rfl (forall_ne_active rfl)
      (fun _ => rfl) trivial
  | delLock q =>
    rw [hp] at h hk
    -- the target of a deletion is still on the active ring
    have hmem : q ∈ s.sh.ring .active :=
      (hinv.mem .active q).mpr (hinv.target t q (by rw [hp]; rfl)).1
    exact hinv.lock hp h ⟨fun _ => rfl, fun _ h => h, fun _ h => h, fun _ h => h⟩ rfl
      (forall_ne_active rfl) (forall_side (Or.inr ⟨rfl, fun hr => ⟨hmem, hr⟩⟩) (Or.inl rfl)) hk
  | delUnlink q n => rw [hp] at h; cases h; exact hinv.delUnlink hp
  | delTest q => rw [hp] at h; cases h; exact hinv.delTest hp
  | delMark q => rw [hp] at h; cases h; exact hinv.mark hp
  | delLockDeleted q =>
    rw [hp] at h hk
    exact hinv.lock hp h ⟨fun _ => rfl, fun _ h => h, fun _ h => h, fun _ h => h⟩ rfl
      (forall_ne_deleted rfl) (forall_side (Or.inl rfl) (Or.inr ⟨rfl, fun hr => hr⟩)) (fun _ => hk)
  | delLink q n => rw [hp] at h; cases h; exact hinv.delLink hp
  | delUnlockDeleted q =>
    rw [hp] at h
    cases h
    exact hinv.unlock hp (.plain (fun _ => rfl) rfl rfl rfl) rfl rfl (forall_ne_deleted rfl)
      (fun _ => rfl) trivial
  | delUnlock q =>
    rw [hp] at h
    cases h
    exact hinv.unlock hp (.plain (fun _ => rfl) rfl rfl rfl) rfl rfl (forall_ne_active rfl)
      (fun _ => rfl) trivial
  | sweepLock => rw [hp] at h; exact hinv.sweepLock hp h
  | sweepStart due => rw [hp] at h; cases h; exact hinv.sweepStart hp
  | sweepTest due q =>
    rw [hp] at h
    simp only [stepGo] at h
    by_cases hq : q = s.sh.head .deleted
    · rw [if_pos hq] at h
      cases h
      exact hinv.sweepEnd (by rw [hp, hq])
    · rw [if_neg hq] at h
      cases h
      exact hinv.sweepEntry hp hq
  | sweepLoad due q => rw [hp] at h; cases h; exact hinv.sweepLoad hp
  | sweepNext due q => rw [hp] at h; cases h; exact hinv.sweepNext hp
  | sweepSave due q => rw [hp] at h; cases h; exact hinv.sweepSave hp
  | sweepUnlink due q pnext n => rw [hp] at h; cases h; exact hinv.sweepUnlink hp
  | sweepFree due q pnext => rw [hp] at h; cases h; exact hinv.free hp
  | sweepUnlock due =>
    rw [hp] at h
    cases h
    exact hinv.unlock hp (.plain (fun _ => rfl) rfl rfl rfl) rfl rfl (forall_ne_deleted rfl)
      (fun _ => rfl) trivial

/-- **Step.** -/
theorem inv_step {l : ι × Act} {s' : State ι} (hinv : Inv s)
    (hok : Disciplined s l ∧ NoOverflow s l) (hs : step s l = some s') : Inv s' := by
  obtain ⟨t, a⟩ := l
  obtain ⟨o, ho, rfl⟩ := Option.map_eq_some_iff.mp hs
  cases a with
  | go => exact inv_go hinv hok.2 ho
  | call c =>
    simp only [outcome] at ho
    split at ho
    · rename_i hidle
      exact inv_call hinv hidle c hok.1 ho
    · cases ho

/-- **Run.**  The invariant holds after every run of disciplined threads. -/
theorem inv_run {h : Heap} {plist : Ptr} {hist : List (State ι × (ι × Act))}
    (hr : Run step (start ι h plist) hist s)
    (hok : ∀ p ∈ hist, Disciplined p.1 p.2 ∧ NoOverflow p.1 p.2) : Inv s :=
  hr.invariant (fun s l => Disciplined s l ∧ NoOverflow s l) Inv (inv_start h plist)
    (fun _ _ _ => inv_step) hok

/-- **Reference-count safety.**  In every run of threads that keep the discipline and never
    count the `2 ^ 32`-th reference to an entry: what the sweep frees is allocated and held by
    nobody, what `doublylinkedlistFind` returns is on the active ring, and a ring is a circular
    doubly linked list whenever its lock is free. -/
theorem refcount_safe (h : Heap) (plist : Ptr) (hist : List (State ι × (ι × Act))) (s : State ι)
    (hr : Run step (start ι h plist) hist s)
    (hok : ∀ p ∈ hist, Disciplined p.1 p.2 ∧ NoOverflow p.1 p.2) :
    (∀ t due q pnext, s.pc t = .sweepFree due q pnext →
      s.sh.heap.allocated q = true ∧ ∀ u, (u, q) ∉ s.sh.holders) ∧
    (∀ t q, s.pc t = .findUnlock (some q) → OnRing s.sh.heap.next s.sh.plist q) ∧
    ∀ k, s.sh.lock k = none → ∃ xs, s.sh.heap.Ring (s.sh.head k) xs := by
  have hinv := inv_run hr hok
  refine ⟨?_, ?_, ?_⟩
  · intro t due q pnext hp
    have hk := hinv.knows t
    rw [hp] at hk
    refine ⟨?_, fun u hu => hk.1 _ hu rfl⟩
    rw [hinv.alloc, hinv.own t q (by rw [hp]; rfl)]
    rfl
  · intro t q hp
    have hk := hinv.knows t
    rw [hp] at hk
    exact (hinv.ring_of_holds .active hp rfl rfl).onRing_iff.mpr hk
  · exact fun k hl => ⟨s.sh.ring k, hinv.ring_of_free hl⟩

/-! ### Runs on concrete inputs -/

/-- `Disciplined`, evaluated. -/
def disciplinedCheck (s : State ι) : ι × Act → Bool
  | (t, .call (.release p)) => s.sh.holders.contains (t, p)
  | (t, .call (.del p)) => s.sh.holders.contains (t, p) && !s.sh.delCalled.contains p
  | _ => true

theorem disciplined_of_check {s : State ι} {l : ι × Act} (h : disciplinedCheck s l = true) :
    Disciplined s l := by
  match l with
  | (t, .call (.release p)) => simpa [disciplinedCheck, Disciplined] using h
  | (t, .call (.del p)) => simpa [disciplinedCheck, Disciplined] using h
  | (t, .go) => trivial
  | (t, .call (.add _ _ _)) => trivial
  | (t, .call (.find _)) => trivial
  | (t, .call .freeDeletedEntries) => trivial

/-- `NoOverflow`, evaluated. -/
def noOverflowCheck (s : State ι) (l : ι × Act) : Bool :=
  match s.pc l.1 with
  | .findTest _ p => (s.sh.heap.references p).toNat + 1 < 2 ^ 32
  | _ => true

omit [DecidableEq ι] in
/-- The test decides that no counter is at its maximum. -/
theorem noOverflow_of_check {s : State ι} {l : ι × Act} (h : noOverflowCheck s l = true) :
    NoOverflow s l := by
  intro key p hp _ _ _
  simp only [noOverflowCheck, hp, decide_eq_true_eq] at h
  exact h

/-- Two threads: one adds an entry, the other finds it; the first deletes and releases it, the
    second releases it and sweeps.  The entry is freed when both have released it. -/
theorem refcount_safe_two_threads :
    ∃ (hist : List (State Bool × (Bool × Act))) (s : State Bool) (due : List Ptr) (pnext : Ptr),
      Run step (start Bool Heap.zero 100) hist s ∧
      s.pc true = .sweepFree due 200 pnext ∧
      s.sh.heap.allocated 200 = true ∧ ∀ u, (u, 200) ∉ s.sh.holders := by
  -- the whole run, evaluated
  have hplay : ((play step (fun s l => disciplinedCheck s l && noOverflowCheck s l)
      (start Bool Heap.zero 100)
      ((false, .call (.add 7 [] (some 200))) :: List.replicate 6 (false, .go) ++
        (true, .call (.find 7)) :: List.replicate 4 (true, .go) ++
        (false, .call (.del 200)) :: List.replicate 14 (false, .go) ++
        [(false, .call (.release 200)), (true, .call (.release 200)),
          (true, .call .freeDeletedEntries)] ++ List.replicate 9 (true, .go))).any
      fun s => match s.pc true with
        | .sweepFree _ q _ => q = 200
        | _ => false) = true := by
    decide +kernel
  obtain ⟨hist, s, hr, hok, hs⟩ := exists_run_of_play step _ _ _ _ hplay
  have hok' : ∀ p ∈ hist, Disciplined p.1 p.2 ∧ NoOverflow p.1 p.2 := by
    intro p hp
    have h := hok p hp
    rw [Bool.and_eq_true] at h
    exact ⟨disciplined_of_check h.1, noOverflow_of_check h.2⟩
  split at hs
  · rename_i due q pnext hpc
    obtain rfl : q = 200 := by simpa using hs
    exact ⟨hist, s, due, pnext, hr, hpc,
      (refcount_safe Heap.zero 100 hist s hr hok').1 true due 200 pnext hpc⟩
  · cases hs

/-! ### Overflow -/

/-- The heap of the list at 100 after the entry 200 has been added. -/
def addedHeap : Heap :=
  entryHeaderAdd ((doublylinkedlistAlloc Heap.zero 100).heap.newEntry 200 7 []) 100 200

/-- The list at 100 with the active entry 200, whose count is `r` and whose references are
    `hs`. -/
def crowded (r : UInt32) (hs : List (Unit × Ptr)) : State Unit where
  sh :=
    { heap := addedHeap.setReferences 200 r
      plist := 100
      lock := fun _ => none
      ring := Function.update (fun _ => []) .active [200]
      place := Function.update (start Unit Heap.zero 100).sh.place 200 (.ring .active)
      holders := hs
      delCalled := [] }
  pc := fun _ => .idle

/-- The same list after `doublylinkedlistDel`. -/
def retired (r : UInt32) (hs : List (Unit × Ptr)) : State Unit where
  sh :=
    { heap := (entryHeaderAdd ((entryHeaderDel addedHeap 200).setDeleted 200 true) 124
        200).setReferences 200 r
      plist := 100
      lock := fun _ => none
      ring := Function.update (fun _ => []) .deleted [200]
      place := Function.update (start Unit Heap.zero 100).sh.place 200 (.ring .deleted)
      holders := hs
      delCalled := [200] }
  pc := fun _ => .idle

/-- Taking a lock and giving it back leaves all locks free. -/
theorem lock_unlock (k : Side) :
    Function.update (Function.update (fun _ => none) k (some ())) k none =
      (fun _ => none : Side → Option Unit) := by
  rw [Function.update_idem]
  exact Function.update_eq_self k _

/-- `doublylinkedlistAdd`. -/
theorem play_add : play step disciplinedCheck (start Unit Heap.zero 100)
    (((), .call (.add 7 [] (some 200))) :: List.replicate 6 ((), .go)) =
      some (crowded 1 [((), 200)]) := by
  have hplay : play step disciplinedCheck (start Unit Heap.zero 100)
      (((), .call (.add 7 [] (some 200))) :: List.replicate 6 ((), .go)) =
        some ⟨{ (crowded 1 [((), 200)]).sh with
          heap := addedHeap
          lock := Function.update (Function.update (fun _ => none) .active (some ())) .active none
          place := Function.update (Function.update (start Unit Heap.zero 100).sh.place 200
            (.thread ())) 200 (.ring .active) }, fun _ => .idle⟩ := rfl
  have hrefs : addedHeap = addedHeap.setReferences 200 1 := by
    simp only [Heap.setReferences]
    rw [show (1 : UInt32) = addedHeap.references 200 from rfl, Function.update_eq_self]
  rw [hplay, lock_unlock, Function.update_idem, hrefs]
  rfl

/-- `doublylinkedlistFind`. -/
theorem play_find (r : UInt32) (hs : List (Unit × Ptr)) :
    play step disciplinedCheck (crowded r hs)
      (((), .call (.find 7)) :: List.replicate 4 ((), .go)) =
        some (crowded (r + 1) (((), 200) :: hs)) := by
  have hplay : play step disciplinedCheck (crowded r hs)
      (((), .call (.find 7)) :: List.replicate 4 ((), .go)) =
        some ⟨{ (crowded r hs).sh with
          heap := (crowded r hs).sh.heap.setReferences 200 (r + 1)
          holders := ((), 200) :: hs
          lock := Function.update (Function.update (fun _ => none) .active (some ())) .active
            none }, fun _ => .idle⟩ := rfl
  rw [hplay, lock_unlock]
  simp only [crowded, Heap.setReferences, Function.update_idem]

/-- Counts and links do not interfere. -/
theorem setReferences_del (h : Heap) (a p : Ptr) (r : UInt32) :
    entryHeaderAdd ((entryHeaderDel (h.setReferences p r) p).setDeleted p true) a p =
      (entryHeaderAdd ((entryHeaderDel h p).setDeleted p true) a p).setReferences p r := rfl

/-- `doublylinkedlistDel`: the count has wrapped around to 1, which is all it looks at. -/
theorem play_del (hs : List (Unit × Ptr)) :
    play step disciplinedCheck (crowded 1 (((), 200) :: hs))
      (((), .call (.del 200)) :: List.replicate 14 ((), .go)) =
        some (retired 1 (((), 200) :: hs)) := by
  -- the run itself; the rest brings the updates of its state into one form
  have hplay : play step disciplinedCheck (crowded 1 (((), 200) :: hs))
      (((), .call (.del 200)) :: List.replicate 14 ((), .go)) =
        some ⟨{ (retired 1 (((), 200) :: hs)).sh with
          heap := entryHeaderAdd ((entryHeaderDel (addedHeap.setReferences 200 1) 200).setDeleted
            200 true) 124 200
          lock := Function.update (Function.update (Function.update (Function.update
            (fun _ => none) .active (some ())) .deleted (some ())) .deleted none) .active none
          ring := Function.update (Function.update (Function.update (fun _ => []) .active [200])
            .active []) .deleted [200]
          place := Function.update (Function.update (crowded 1 []).sh.place 200 (.thread ())) 200
            (.ring .deleted) }, fun _ => .idle⟩ := rfl
  have hlock : Function.update (Function.update (Function.update (Function.update
      (fun _ => none) .active (some ())) .deleted (some ())) .deleted none) .active none =
        (fun _ => none : Side → Option Unit) :=
    funext (forall_side rfl rfl)
  have hring : Function.update (Function.update (Function.update (fun _ => []) .active [200])
      .active []) .deleted [200] =
        (Function.update (fun _ => []) .deleted [200] : Side → List Ptr) :=
    funext (forall_side rfl rfl)
  rw [hplay, hlock, hring, setReferences_del]
  simp only [crowded, retired, Function.update_idem]

/-- `doublylinkedlistRelease`. -/
theorem play_release (hs : List (Unit × Ptr)) :
    play step disciplinedCheck (retired 1 (((), 200) :: hs)) [((), .call (.release 200))] =
      some (retired 0 hs) := by
  have hplay : play step disciplinedCheck (retired 1 (((), 200) :: hs))
      [((), .call (.release 200))] =
        some ⟨{ (retired 1 hs).sh with
          heap := (retired 1 hs).sh.heap.setReferences 200 (1 - 1) }, fun _ => .idle⟩ := rfl
  rw [hplay]
  simp only [retired, Heap.setReferences, Function.update_idem]
  rfl

/-- `doublylinkedlistFreeDeletedEntries`, up to the call of `free`. -/
theorem play_sweep (hs : List (Unit × Ptr)) :
    (play step disciplinedCheck (retired 0 hs)
      (((), .call .freeDeletedEntries) :: List.replicate 9 ((), .go))).map
        (fun s => (s.pc (), s.sh.holders)) = some (.sweepFree [200] 200 124, hs) := rfl

/-- Any number of calls of `doublylinkedlistFind`, none of them followed by a release. -/
theorem run_finds (n : ℕ) : ∃ hist, Run step (start Unit Heap.zero 100) hist
    (crowded (1 + UInt32.ofNat n) (List.replicate n ((), 200) ++ [((), 200)])) ∧
      ∀ p ∈ hist, disciplinedCheck p.1 p.2 = true := by
  induction n with
  | zero => exact run_of_play play_add
  | succ n ih =>
    have hfind := run_of_play (play_find (1 + UInt32.ofNat n)
      (List.replicate n ((), 200) ++ [((), 200)]))
    rw [UInt32.add_assoc] at hfind
    rw [UInt32.ofNat_add]
    exact exists_run_trans ih hfind

/-- **Overflow.**  Threads that keep the discipline can free an entry that is still held: with
    `2 ^ 32 + 1` references the count is 1, and one release makes it 0. -/
theorem freed_while_held :
    ∃ (hist : List (State Unit × (Unit × Act))) (s : State Unit),
      Run step (start Unit Heap.zero 100) hist s ∧ (∀ p ∈ hist, Disciplined p.1 p.2) ∧
      ∃ due pnext, s.pc () = .sweepFree due 200 pnext ∧ ((), 200) ∈ s.sh.holders := by
  obtain ⟨n, hn⟩ : ∃ n, n + 1 = 2 ^ 32 := ⟨2 ^ 32 - 1, rfl⟩
  have hrun := run_finds (n + 1)
  have hone : 1 + UInt32.ofNat (n + 1) = 1 := by
    rw [hn]
    rfl
  rw [hone, List.replicate_succ, List.cons_append] at hrun
  -- from here on only the number of the references matters
  generalize hhs : List.replicate n ((), 200) ++ [((), 200)] = hs at hrun
  obtain ⟨s, hs, hend⟩ := Option.map_eq_some_iff.mp (play_sweep hs)
  rw [Prod.mk.injEq] at hend
  have hdel := exists_run_trans hrun (run_of_play (play_del _))
  have hrel := exists_run_trans hdel (run_of_play (play_release _))
  obtain ⟨hist, hr, hok⟩ := exists_run_trans hrel (run_of_play hs)
  have hd : ∀ p ∈ hist, Disciplined p.1 p.2 := fun p hp => disciplined_of_check (hok p hp)
  have h1 : s.pc () = .sweepFree [200] 200 124 := hend.1
  have h2 : ((), 200) ∈ s.sh.holders := by
    rw [hend.2, ← hhs]
    simp
  exact ⟨hist, s, hr, hd, [200], 124, h1, h2⟩

end Niuchacz.DoublyLinkedList.Concurrent
