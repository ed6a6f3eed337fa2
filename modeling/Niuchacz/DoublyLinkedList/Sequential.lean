import Niuchacz.DoublyLinkedList.Refine

namespace Niuchacz.DoublyLinkedList

open Lib.LinkedRing Lib.Transition

/-!
# Calls one after another

What a single thread observes when it makes any sequence of permitted calls on a list:

* `exec_refines` — every permitted call returns, and does to the heap what `AList.step` does
  to the two sequences.
* `list_refines` — over a whole run the list is the pair of sequences computed by `AList.step`.
-/

variable {h : Heap} {plist p : Ptr} {act del : List AEntry} {s s' : ListState} {a : AList}
  {op : Op}

/-- The entry a call allocates. -/
def Op.added : Op → List Ptr
  | .add _ _ (some p) => [p]
  | _ => []

/-- The entries a call frees. -/
def AList.freed (a : AList) : Op → List Ptr
  | .freeDeletedEntries => ptrs (a.deleted.filter (·.references = 0))
  | _ => []

/-- The state after a call is what the abstract list says, and the call has allocated and
    freed the entries it should. -/
structure Refines (s : ListState) (a : AList) (op : Op) (s' : ListState) : Prop where
  represents : Represents s' (a.step op)
  allocated : ∀ x, s'.heap.allocated x = true ↔
    (s.heap.allocated x = true ∨ x ∈ op.added) ∧ x ∉ a.freed op

/-! ### More iterations change nothing -/

/-- More fuel than enough changes nothing, here and in the next two lemmas. -/
theorem findLoop_mono {key : UInt64} {n m : ℕ} (hnm : n ≤ m) (hl : findLoop s key n p = some s') :
    findLoop s key m p = some s' := by
  induction n generalizing m p with
  | zero => cases hl
  | succ n ih =>
    obtain ⟨m, rfl⟩ : ∃ k, m = k + 1 := ⟨m - 1, by omega⟩
    simp only [findLoop] at hl ⊢
    split
    · rwa [if_pos ‹_›] at hl
    · rw [if_neg ‹_›] at hl
      split
      · rwa [if_pos ‹_›] at hl
      · rw [if_neg ‹_›] at hl
        exact ih (by omega) hl

/-- The same for the loops of `doublylinkedlistGetFirst` and `doublylinkedlistGetLast`. -/
theorem getLoop_mono {advance : Ptr → Ptr} {n m : ℕ} (hnm : n ≤ m)
    (hl : getLoop s advance n p = some s') : getLoop s advance m p = some s' := by
  induction n generalizing m p with
  | zero => cases hl
  | succ n ih =>
    obtain ⟨m, rfl⟩ : ∃ k, m = k + 1 := ⟨m - 1, by omega⟩
    simp only [getLoop] at hl ⊢
    split
    · rwa [if_pos ‹_›] at hl
    · rw [if_neg ‹_›] at hl
      split
      · rwa [if_pos ‹_›] at hl
      · rw [if_neg ‹_›] at hl
        exact ih (by omega) hl

theorem freeDeletedLoop_mono {h' : Heap} {n m : ℕ} (hnm : n ≤ m)
    (hl : freeDeletedLoop plist n h p = some h') : freeDeletedLoop plist m h p = some h' := by
  induction n generalizing m p h with
  | zero => cases hl
  | succ n ih =>
    obtain ⟨m, rfl⟩ : ∃ k, m = k + 1 := ⟨m - 1, by omega⟩
    simp only [freeDeletedLoop] at hl ⊢
    split
    · rwa [if_pos ‹_›] at hl
    · rw [if_neg ‹_›] at hl
      split
      · rw [if_pos ‹_›] at hl
        exact ih (by omega) hl
      · rw [if_neg ‹_›] at hl
        exact ih (by omega) hl

/-- A call that has returned returns the same with more iterations allowed. -/
theorem exec_mono {n m : ℕ} (hnm : n ≤ m) (he : exec n s op = some s') :
    exec m s op = some s' := by
  cases op with
  | add key data mem => exact he
  | del p => exact he
  | release p => exact he
  -- ==> the functions with a loop
  | find key =>
    obtain ⟨s₁, hs₁, hl⟩ := Option.bind_eq_some_iff.mp he
    exact Option.bind_eq_some_iff.mpr ⟨s₁, hs₁, findLoop_mono hnm hl⟩
  | getFirst =>
    obtain ⟨s₁, hs₁, hl⟩ := Option.bind_eq_some_iff.mp he
    exact Option.bind_eq_some_iff.mpr ⟨s₁, hs₁, getLoop_mono hnm hl⟩
  | getLast =>
    obtain ⟨s₁, hs₁, hl⟩ := Option.bind_eq_some_iff.mp he
    exact Option.bind_eq_some_iff.mpr ⟨s₁, hs₁, getLoop_mono hnm hl⟩
  | freeDeletedEntries =>
    obtain ⟨s₁, hs₁, hl⟩ := Option.bind_eq_some_iff.mp he
    obtain ⟨h₁, hh₁, hret⟩ := Option.bind_eq_some_iff.mp hl
    refine Option.bind_eq_some_iff.mpr ⟨s₁, hs₁, ?_⟩
    exact Option.bind_eq_some_iff.mpr ⟨h₁, freeDeletedLoop_mono hnm hh₁, hret⟩

/-! ### Single calls -/

/-- Between two calls `spinlockLock` takes the lock of the active ring at once. -/
theorem Represents.lockActive (hr : Represents s a) :
    s.lockActive = some { s with isActiveEntriesLocked := true } := by
  simp [ListState.lockActive, hr.activeUnlocked]

theorem Represents.lockDeleted (hr : Represents s a) :
    s.lockDeleted = some { s with isDeletedEntriesLocked := true } := by
  simp [ListState.lockDeleted, hr.deletedUnlocked]

/-- Returning an active entry, or `NULL`. -/
theorem Represents.found (hr : Represents s a) {e : Option AEntry} (he : ∀ x ∈ e, x ∈ a.active) :
    Represents (ListState.found { s with isActiveEntriesLocked := true } e) (a.take e) := by
  cases e with
  | none => exact ⟨hr.rep, rfl, hr.deletedUnlocked, congrArg (· ++ [none]) hr.returned⟩
  | some e =>
    have hmem : e.ptr ∈ ptrs a.active := mem_ptrs.mpr ⟨e, he e rfl, rfl⟩
    exact ⟨hr.rep.addReference hmem, rfl, hr.deletedUnlocked,
      congrArg (· ++ [some e.ptr]) hr.returned⟩

/-- A reference that is counted for an entry allocates and frees nothing. -/
theorem found_allocated (hr : Rep s.heap s.plist act del) {e : Option AEntry}
    (he : ∀ x ∈ e, x ∈ act) : (s.found e).heap.allocated = s.heap.allocated := by
  cases e with
  | none => rfl
  | some e =>
    have hne := hr.ptr_ne_plist (he e rfl)
    simp [ListState.found, ListState.unlockActive, ListState.ret, addReference, hne,
      Heap.setReferences]

/-- A call that looks for an active entry and does nothing else. -/
theorem Represents.refines_found (hr : Represents s a) {e : Option AEntry}
    (he : ∀ x ∈ e, x ∈ a.active) (hstep : a.step op = a.take e) (hadd : op.added = [])
    (hfree : a.freed op = []) :
    Refines s a op (ListState.found { s with isActiveEntriesLocked := true } e) where
  represents := by
    rw [hstep]
    exact hr.found he
  allocated := by
    intro x
    have halloc := found_allocated (s := { s with isActiveEntriesLocked := true }) hr.rep he
    rw [halloc, hadd, hfree]
    simp

/-- `doublylinkedlistAdd` puts the new entry at the front of the active entries. -/
theorem add_refines (hr : Represents s a) {key : UInt64} {data : List UInt8} {mem : Option Ptr}
    (ha : Allowed s (.add key data mem)) :
    ∃ s', Refines s a (.add key data mem) s' ∧
      doublylinkedlistAdd s key data mem = some s' := by
  cases mem with
  | none =>
    -- `malloc` has failed
    refine ⟨s.ret none, ⟨⟨hr.rep, hr.activeUnlocked, hr.deletedUnlocked, ?_⟩, ?_⟩, rfl⟩
    · exact congrArg (· ++ [none]) hr.returned
    · intro x
      simp [Op.added, AList.freed, ListState.ret]
  | some p =>
    obtain ⟨hfree, hp, hp'⟩ := ha
    have hrep := hr.rep.newEntry hfree hp hp' key data
    let s' := { s with heap := entryHeaderAdd (s.heap.newEntry p key data) s.plist p }
    refine ⟨s'.unlockActive.ret (some p), ⟨⟨hrep, rfl, hr.deletedUnlocked, ?_⟩, ?_⟩, ?_⟩
    · exact congrArg (· ++ [some p]) hr.returned
    · intro x
      show Function.update s.heap.allocated p true x = true ↔ _
      by_cases hx : x = p
      · simp [hx, Op.added, AList.freed]
      · simp [hx, Op.added, AList.freed]
    · simp [doublylinkedlistAdd, ListState.lockActive, hr.activeUnlocked,
        ListState.unlockActive, ListState.ret, s']

/-- `doublylinkedlistFind` counts a reference for the first active entry with the key; the loop ends
    when the entries are through. -/
theorem find_refines (hr : Represents s a) (key : UInt64) :
    ∃ s', Refines s a (.find key) s' ∧
      ∀ n, a.active.length < n → doublylinkedlistFind n s key = some s' := by
  refine ⟨_, hr.refines_found (e := a.active.find? (·.key = key)) ?_ rfl rfl rfl, ?_⟩
  · intro e he
    exact List.mem_of_find?_eq_some he
  · intro n hn
    have hrep : Rep s.heap s.plist ([] ++ a.active) a.deleted := hr.rep
    have hloop := findLoop_eq (s := { s with isActiveEntriesLocked := true }) hrep key hn
    rw [← Ring.next_head hr.rep.activeRing] at hloop
    simp only [doublylinkedlistFind, hr.lockActive]
    exact hloop

/-- The active ring has a first entry if its head does not point to itself. -/
theorem Represents.active_ne_nil (hr : Represents s a) (hne : s.heap.next s.plist ≠ s.plist) :
    a.active ≠ [] := by
  intro hnil
  have hnext := Ring.next_head hr.rep.activeRing
  rw [hnil] at hnext
  exact hne hnext

/-- `doublylinkedlistGetFirst` counts one for the first active entry, if there is one. -/
theorem getFirst_refines (hr : Represents s a) (ha : Allowed s .getFirst) :
    ∃ s', Refines s a .getFirst s' ∧
      ∀ n, 0 < n → doublylinkedlistGetFirst n s = some s' := by
  obtain ⟨e, l, hact⟩ := List.exists_cons_of_ne_nil (hr.active_ne_nil ha)
  have he : e ∈ a.active := by simp [hact]
  refine ⟨_, hr.refines_found (e := some e) (by simpa using he) ?_ rfl rfl, ?_⟩
  · simp [AList.step, hact]
  · intro n hn
    have hnext : s.heap.next s.plist = e.ptr := by
      have := Ring.next_head hr.rep.activeRing
      rw [this, hact]
      rfl
    simp only [doublylinkedlistGetFirst, hr.lockActive]
    show getLoop { s with isActiveEntriesLocked := true } s.heap.next n (s.heap.next s.plist) = _
    rw [hnext]
    exact getLoop_eq (s := { s with isActiveEntriesLocked := true }) hr.rep _ he hn

/-- `doublylinkedlistGetLast` counts one for the last. -/
theorem getLast_refines (hr : Represents s a) (ha : Allowed s .getLast) :
    ∃ s', Refines s a .getLast s' ∧
      ∀ n, 0 < n → doublylinkedlistGetLast n s = some s' := by
  obtain ⟨l, e, hact⟩ : ∃ l e, a.active = l ++ [e] := by
    have hne := hr.active_ne_nil ha
    exact ⟨_, _, (List.dropLast_append_getLast hne).symm⟩
  have he : e ∈ a.active := by simp [hact]
  refine ⟨_, hr.refines_found (e := some e) (by simpa using he) ?_ rfl rfl, ?_⟩
  · simp [AList.step, hact]
  · intro n hn
    have hprev : s.heap.prev s.plist = e.ptr := by
      have := Ring.prev_head hr.rep.activeRing
      rw [this, hact]
      simp
    simp only [doublylinkedlistGetLast, hr.lockActive]
    show getLoop { s with isActiveEntriesLocked := true } s.heap.prev n (s.heap.prev s.plist) = _
    rw [hprev]
    exact getLoop_eq (s := { s with isActiveEntriesLocked := true }) hr.rep _ he hn

/-- `doublylinkedlistRelease` takes one reference back, wherever the entry is. -/
theorem release_refines (hr : Represents s a) (p : Ptr) :
    Refines s a (.release p) (doublylinkedlistRelease s p) where
  represents :=
    ⟨hr.rep.modifyReferences p (· - 1), hr.activeUnlocked, hr.deletedUnlocked, hr.returned⟩
  allocated := by
    intro x
    simp [doublylinkedlistRelease, Heap.setReferences, Op.added, AList.freed]

/-- The sweep frees the deleted entries without references and keeps the others in their order. -/
theorem freeDeletedEntries_refines (hr : Represents s a) :
    ∃ s', Refines s a .freeDeletedEntries s' ∧
      ∀ n, a.deleted.length < n → doublylinkedlistFreeDeletedEntries n s = some s' := by
  have hrep₀ : Rep s.heap s.plist a.active ([] ++ a.deleted) := hr.rep
  obtain ⟨h', hloop, hrep, halloc⟩ :=
    freeDeletedLoop_eq hrep₀ (Nat.lt_succ_self a.deleted.length)
  rw [← Ring.next_head hr.rep.deletedRing] at hloop
  refine ⟨{ s with heap := h', isDeletedEntriesLocked := false },
    ⟨⟨hrep, hr.activeUnlocked, rfl, hr.returned⟩, ?_⟩, ?_⟩
  · intro x
    simpa [Op.added, AList.freed] using halloc x
  · intro n hn
    have hloop' := freeDeletedLoop_mono (m := n) (by omega) hloop
    refine Option.bind_eq_some_iff.mpr ⟨_, hr.lockDeleted, ?_⟩
    exact Option.bind_eq_some_iff.mpr ⟨h', hloop', rfl⟩

/-- An entry on the active ring is one of the abstract list's. -/
theorem Represents.active_split (hr : Represents s a) (hp : OnRing s.heap.next s.plist p) :
    ∃ ys e zs, a.active = ys ++ e :: zs ∧ e.ptr = p := by
  have hmem := (Ring.onRing_iff hr.rep.activeRing).mp hp
  obtain ⟨e, he, hep⟩ := mem_ptrs.mp hmem
  obtain ⟨ys, zs, hact⟩ := List.append_of_mem he
  exact ⟨ys, e, zs, hact, hep⟩

/-- In a list of entries with different addresses, the address picks one. -/
theorem filter_split {ys zs : List AEntry} {e : AEntry} (hnodup : (ptrs (ys ++ e :: zs)).Nodup) :
    (ys ++ e :: zs).filter (·.ptr ≠ e.ptr) = ys ++ zs ∧
      (ys ++ e :: zs).filter (fun x => x.ptr = e.ptr ∧ x.references > 0) =
        if e.references > 0 then [e] else [] := by
  have hys : ∀ x ∈ ys, x.ptr ≠ e.ptr := by
    intro x hx he
    simp only [ptrs_append, ptrs_cons, List.nodup_append, List.mem_cons] at hnodup
    exact hnodup.2.2 x.ptr (mem_ptrs.mpr ⟨x, hx, rfl⟩) e.ptr (Or.inl rfl) he
  have hzs : ∀ x ∈ zs, x.ptr ≠ e.ptr := by
    intro x hx he
    simp only [ptrs_append, ptrs_cons, List.nodup_append, List.nodup_cons] at hnodup
    exact hnodup.2.1.1 (mem_ptrs.mpr ⟨x, hx, he⟩)
  constructor
  · rw [List.filter_append, List.filter_cons_of_neg (by simp), List.filter_eq_self.mpr,
      List.filter_eq_self.mpr]
    · simpa using hzs
    · simpa using hys
  · -- the two other parts have no entry with this address
    have hnone : ∀ l : List AEntry, (∀ x ∈ l, x.ptr ≠ e.ptr) →
        l.filter (fun x => x.ptr = e.ptr ∧ x.references > 0) = [] := by
      intro l hl
      rw [List.filter_eq_nil_iff]
      intro x hx
      simp [hl x hx]
    rw [List.filter_append, List.filter_cons, hnone ys hys, hnone zs hzs]
    by_cases hc : e.references > 0 <;> simp [hc]

/-- `doublylinkedlistDel` moves an active entry to the front of the deleted ones. -/
theorem del_refines (hr : Represents s a) (ha : Allowed s (.del p)) :
    ∃ s', Refines s a (.del p) s' ∧ doublylinkedlistDel s p = some s' := by
  obtain ⟨ys, e, zs, hact, rfl⟩ := hr.active_split ha
  have hrep := hr.rep
  rw [hact] at hrep
  have hnodup : (ptrs (ys ++ e :: zs)).Nodup := (List.nodup_append.mp hrep.nodup).1
  have hstored := hrep.activeStored e (by simp)
  obtain ⟨hfilter, hpick⟩ := filter_split hnodup
  have hunlinked := hrep.unlinkActive
  have hrefs : (entryHeaderDel s.heap e.ptr).references e.ptr = e.references := hstored.references
  -- the entry is on neither ring once it has been unlinked
  have hoff : e.ptr ∉ s.plist :: deletedEntries s.plist :: (ptrs (ys ++ zs) ++ ptrs a.deleted) := by
    have hapart := hrep.apart
    simp only [ptrs_append, ptrs_cons, List.nodup_cons, List.mem_cons, List.mem_append, not_or,
      List.nodup_append] at hapart ⊢
    refine ⟨Ne.symm hapart.1.2.1.2.1, Ne.symm hapart.2.1.1.2.1, ⟨?_, ?_⟩, ?_⟩
    · intro hmem
      exact hapart.2.2.1.2.2 e.ptr hmem e.ptr (Or.inl rfl) rfl
    · exact hapart.2.2.1.2.1.1
    · intro hmem
      exact hapart.2.2.2.2 e.ptr (Or.inr (Or.inl rfl)) e.ptr hmem rfl
  have hlock := hr.lockActive
  by_cases hpos : e.references > 0
  · let h₁ := (entryHeaderDel s.heap e.ptr).setDeleted e.ptr true
    have hrep₁ : Rep h₁ s.plist (ys ++ zs) a.deleted := by
      refine hunlinked.congr_off rfl rfl ?_ fun hmem =>
        hoff (List.mem_cons_of_mem _ (List.mem_cons_of_mem _ hmem))
      intro d e' hne hs
      refine ⟨hs.key, hs.references, ?_, hs.size, hs.data, hs.allocated⟩
      simp [h₁, Heap.setDeleted, Function.update_of_ne hne, hs.isDeleted]
    have hstored₁ : Stores h₁ true e :=
      ⟨hstored.key, hstored.references, by simp [h₁, Heap.setDeleted], hstored.size, hstored.data,
        hstored.allocated⟩
    have hrep₂ := hrep₁.linkDeleted hstored₁ hoff
    refine ⟨{ s with heap := entryHeaderAdd h₁ (deletedEntries s.plist) e.ptr },
      ⟨⟨?_, hr.activeUnlocked, hr.deletedUnlocked, hr.returned⟩, ?_⟩, ?_⟩
    · simpa only [AList.step, hact, hfilter, hpick, hpos, if_true, List.singleton_append]
        using hrep₂
    · intro x
      simp only [Op.added, AList.freed, List.not_mem_nil, or_false, not_false_eq_true, and_true]
      exact Iff.rfl
    · have hpos' : (entryHeaderDel s.heap e.ptr).references e.ptr > 0 := by rwa [hrefs]
      simp only [doublylinkedlistDel, hlock, Option.bind_eq_bind, Option.bind_some, hpos', if_true,
        ListState.lockDeleted, hr.deletedUnlocked]
      simp [ListState.unlockDeleted, ListState.unlockActive, hr.activeUnlocked, h₁]
  · refine ⟨{ s with heap := entryHeaderDel s.heap e.ptr },
      ⟨⟨?_, hr.activeUnlocked, hr.deletedUnlocked, hr.returned⟩, ?_⟩, ?_⟩
    · simpa only [AList.step, hact, hfilter, hpick, hpos, if_false, List.nil_append]
        using hunlinked
    · intro x
      simp only [Op.added, AList.freed, List.not_mem_nil, or_false, not_false_eq_true, and_true]
      exact Iff.rfl
    · have hpos' : ¬ (entryHeaderDel s.heap e.ptr).references e.ptr > 0 := by rwa [hrefs]
      simp only [doublylinkedlistDel, hlock, Option.bind_eq_bind, Option.bind_some, hpos', if_false]
      simp [ListState.unlockActive, hr.activeUnlocked]

/-- **Step.**  Every call its caller may make returns, and refines the abstract call. -/
theorem exec_refines (hr : Represents s a) (ha : Allowed s op) :
    ∃ s', Refines s a op s' ∧
      ∀ n, a.active.length + a.deleted.length < n → exec n s op = some s' := by
  -- no loop makes more rounds than there are entries
  cases op with
  | add key data mem =>
    obtain ⟨s', href, hexec⟩ := add_refines hr ha
    exact ⟨s', href, fun _ _ => hexec⟩
  | find key =>
    obtain ⟨s', href, hexec⟩ := find_refines hr key
    exact ⟨s', href, fun n hn => hexec n (by omega)⟩
  | getFirst =>
    obtain ⟨s', href, hexec⟩ := getFirst_refines hr ha
    exact ⟨s', href, fun n hn => hexec n (by omega)⟩
  | getLast =>
    obtain ⟨s', href, hexec⟩ := getLast_refines hr ha
    exact ⟨s', href, fun n hn => hexec n (by omega)⟩
  | del p =>
    obtain ⟨s', href, hexec⟩ := del_refines hr ha
    exact ⟨s', href, fun _ _ => hexec⟩
  | release p => exact ⟨_, release_refines hr p, fun _ _ => rfl⟩
  | freeDeletedEntries =>
    obtain ⟨s', href, hexec⟩ := freeDeletedEntries_refines hr
    exact ⟨s', href, fun n hn => hexec n (by omega)⟩

/-- However many iterations a call was given, if it has returned it has refined. -/
theorem refines_of_exec {n : ℕ} (hr : Represents s a) (ha : Allowed s op)
    (he : exec n s op = some s') : Refines s a op s' := by
  obtain ⟨s'', href, hexec⟩ := exec_refines hr ha
  let m := max n (a.active.length + a.deleted.length + 1)
  have h₁ : exec m s op = some s' := exec_mono (Nat.le_max_left _ _) he
  have h₂ : exec m s op = some s'' := hexec m (by omega)
  rw [h₁] at h₂
  cases h₂
  exact href

/-! ### Runs -/

/-- The abstract list after the calls of a history. -/
def abstractRun (hist : List (ListState × Op × ℕ)) : AList :=
  (hist.map fun x => x.2.1).foldl AList.step AList.empty

theorem abstractRun_snoc (hist : List (ListState × Op × ℕ)) (s : ListState) (l : Op × ℕ) :
    abstractRun (hist ++ [(s, l)]) = (abstractRun hist).step l.1 := by
  simp [abstractRun]

variable {hist : List (ListState × Op × ℕ)}

/-- **Run.**  The list represents what the abstract list computes. -/
theorem represents_run (hr : Run step (doublylinkedlistAlloc h plist) hist s)
    (hok : ∀ x ∈ hist, Allowed x.1 x.2.1) : Represents s (abstractRun hist) := by
  induction hr with
  | nil => exact represents_alloc h plist
  | @snoc hist s s' l _ hs ih =>
    rw [abstractRun_snoc]
    have hrep := ih fun x hx => hok x (by simp [hx])
    exact (refines_of_exec hrep (hok (s, l) (by simp)) hs).represents

/-- **The pointer list refines a pair of sequences.**  After every sequence of permitted calls
    the two rings are well formed and hold the sequences that `AList.step` computes, the calls
    have returned what it returns, the nodes reachable from the two heads are exactly the
    entries of the two sequences, and every further permitted call returns. -/
theorem list_refines (hr : Run step (doublylinkedlistAlloc h plist) hist s)
    (hok : ∀ x ∈ hist, Allowed x.1 x.2.1) :
    Represents s (abstractRun hist) ∧
    (∀ p, OnRing s.heap.next s.plist p ↔ p ∈ ptrs (abstractRun hist).active) ∧
    (∀ p, OnRing s.heap.next (deletedEntries s.plist) p ↔ p ∈ ptrs (abstractRun hist).deleted) ∧
    ∀ op, Allowed s op → ∃ s', Represents s' ((abstractRun hist).step op) ∧
      ∃ N, ∀ n, N < n → step s (op, n) = some s' := by
  have hrep := represents_run hr hok
  refine ⟨hrep, fun p => Ring.onRing_iff hrep.rep.activeRing,
    fun p => Ring.onRing_iff hrep.rep.deletedRing, ?_⟩
  intro op ha
  obtain ⟨s', href, hexec⟩ := exec_refines hrep ha
  exact ⟨s', href.represents, _, hexec⟩

/-! ### A concrete run -/

/-- A check that implies that a call is permitted: the nodes up to the fourth are looked at. -/
def allowedCheck (s : ListState) (l : Op × ℕ) : Bool :=
  match l.1 with
  | .add _ _ (some p) => !s.heap.allocated p && p != s.plist && p != deletedEntries s.plist
  | .del p => p != s.plist && (List.range 4).any fun k => s.heap.next^[k] s.plist = p
  | .release p => s.heap.allocated p
  | .getFirst | .getLast => s.heap.next s.plist != s.plist
  | _ => true

theorem allowed_of_check {l : Op × ℕ} (hc : allowedCheck s l = true) : Allowed s l.1 := by
  unfold allowedCheck at hc
  unfold Allowed
  split at hc <;> simp_all [OnRing]
  obtain ⟨-, k, -, hk⟩ := hc
  exact ⟨k, hk⟩

/-- Two entries with one key: the newer one is found, and deleted with two references. -/
theorem list_refines_two_entries :
    ∃ hist s, Run step (doublylinkedlistAlloc Heap.zero 64) hist s ∧
      s.returned = [some 1000, some 2000, some 2000] ∧ Represents s (abstractRun hist) := by
  obtain ⟨hist, s, hr, hok, hret⟩ := exists_run_of_play step
    (doublylinkedlistAlloc Heap.zero 64) allowedCheck
    (fun s => s.returned = [some 1000, some 2000, some 2000])
    [(.add 5 [1, 2] (some 1000), 0), (.add 5 [3] (some 2000), 0), (.find 5, 3), (.del 2000, 0),
      (.freeDeletedEntries, 2)] (by decide +kernel)
  have hall : ∀ x ∈ hist, Allowed x.1 x.2.1 := fun x hx => allowed_of_check (hok x hx)
  exact ⟨hist, s, hr, by simpa using hret, (list_refines hr hall).1⟩

end Niuchacz.DoublyLinkedList
