import Niuchacz.DoublyLinkedList.Sequential

namespace Niuchacz.DoublyLinkedList

open Lib.LinkedRing Lib.Transition

/-!
# Where entries are

Every entry that `doublylinkedlistAdd` has returned should be on one of the rings or freed.
`doublylinkedlistDel` breaks this for an entry without references: it takes the entry off the
active ring, does not put it on the deleted one, and does not free it.

* `Accounts` — the entries of the two sequences and the leaked ones are all that is allocated.
* `Accounts.step` — what each call does to this account.
* `entries_accounted` — no entry is lost, and `doublylinkedlistFree` frees everything, exactly
  if every entry was referenced when it was deleted.
-/

variable {h : Heap} {plist p : Ptr} {act del : List AEntry} {s s' : ListState} {a : AList}
  {op : Op} {hist : List (ListState × Op × ℕ)} {leaked : List Ptr}

/-! ### The account -/

/-- An entry is in exactly one of three places: on the active ring, on the deleted ring, or
    freed. -/
def Accounted (s : ListState) (p : Ptr) : Prop :=
  (OnRing s.heap.next s.plist p ∧ ¬ OnRing s.heap.next (deletedEntries s.plist) p ∧
    s.heap.allocated p = true) ∨
  (¬ OnRing s.heap.next s.plist p ∧ OnRing s.heap.next (deletedEntries s.plist) p ∧
    s.heap.allocated p = true) ∨
  (¬ OnRing s.heap.next s.plist p ∧ ¬ OnRing s.heap.next (deletedEntries s.plist) p ∧
    s.heap.allocated p = false)

/-- Every entry was referenced when it was deleted. -/
def DelsHeld (hist : List (ListState × Op × ℕ)) : Prop :=
  ∀ x ∈ hist, ∀ p, x.2.1 = .del p → x.1.heap.references p > 0

/-- The allocated entries are those of the two sequences and the leaked ones. -/
structure Accounts (s : ListState) (a : AList) (leaked : List Ptr) : Prop where
  represents : Represents s a
  allocated : ∀ x, s.heap.allocated x = true ↔ x ∈ ptrs a.active ∨ x ∈ ptrs a.deleted ∨ x ∈ leaked
  off : ∀ x ∈ leaked, x ∉ ptrs a.active ++ ptrs a.deleted
  returned : ∀ x ∈ ptrs a.active ++ leaked, some x ∈ s.returned

/-- A new list has neither entries nor leaks. -/
theorem accounts_alloc (h : Heap) (plist : Ptr) :
    Accounts (doublylinkedlistAlloc h plist) AList.empty [] where
  represents := represents_alloc h plist
  allocated := by
    intro x
    simp [doublylinkedlistAlloc, entryHeaderInit, Heap.setNext, Heap.setPrev, AList.empty]
  off := by simp
  returned := by simp [AList.empty]

/-- The entry that a call drops from the active ring without putting it anywhere. -/
def leaks (s : ListState) : Op → List Ptr
  | .del p => if s.heap.references p > 0 then [] else [p]
  | _ => []

/-- Calls add to what has been returned, and take nothing back. -/
theorem AList.returned_step (a : AList) (op : Op) : a.returned <+: (a.step op).returned := by
  have htake : ∀ e, a.returned <+: (a.take e).returned := by
    intro e
    cases e <;> exact List.prefix_append _ _
  cases op with
  | add key data mem => cases mem <;> exact List.prefix_append _ _
  | find key => exact htake _
  | getFirst => exact htake _
  | getLast => exact htake _
  | _ => exact List.prefix_rfl

/-- An operation that changes neither sequence's addresses nor what is allocated. -/
theorem Accounts.same (hacc : Accounts s a leaked) (href : Refines s a op s')
    (hact : ptrs (a.step op).active = ptrs a.active)
    (hdel : ptrs (a.step op).deleted = ptrs a.deleted) (hadd : op.added = [])
    (hfree : a.freed op = []) : Accounts s' (a.step op) leaked where
  represents := href.represents
  allocated := by
    intro x
    rw [href.allocated x, hact, hdel, hadd, hfree, hacc.allocated x]
    simp
  off := by rw [hact, hdel]; exact hacc.off
  returned := by
    intro x hx
    rw [hact] at hx
    rw [href.represents.returned]
    refine (a.returned_step op).subset ?_
    rw [← hacc.represents.returned]
    exact hacc.returned x hx

theorem ptrs_take (a : AList) (e : Option AEntry) :
    ptrs (a.take e).active = ptrs a.active ∧ ptrs (a.take e).deleted = ptrs a.deleted := by
  cases e <;> simp [AList.take]

/-- A new entry is active, and none of the leaked ones. -/
theorem Accounts.add {key : UInt64} {data : List UInt8} (hacc : Accounts s a leaked)
    (hfree : s.heap.allocated p = false) (href : Refines s a (.add key data (some p)) s') :
    Accounts s' (a.step (.add key data (some p))) leaked where
  represents := href.represents
  allocated := by
    intro x
    rw [href.allocated x, hacc.allocated x]
    simp only [Op.added, AList.freed, AList.step, ptrs_cons, List.mem_cons,
      List.not_mem_nil, or_false, not_false_eq_true, and_true]
    tauto
  off := by
    -- `malloc` does not return a block that is still in use, leaked ones included
    have hnew : p ∉ leaked := by
      intro hmem
      have halloc := (hacc.allocated p).mpr (Or.inr (Or.inr hmem))
      rw [hfree] at halloc
      cases halloc
    intro x hx
    simp only [AList.step, ptrs_cons, List.cons_append, List.mem_cons, not_or]
    exact ⟨fun he => hnew (he ▸ hx), hacc.off x hx⟩
  returned := by
    intro x hx
    rw [href.represents.returned]
    simp only [AList.step, ptrs_cons, List.cons_append, List.mem_cons] at hx
    rcases hx with rfl | hx
    · simp [AList.step]
    · refine (a.returned_step _).subset ?_
      rw [← hacc.represents.returned]
      exact hacc.returned x hx

/-- Among entries with different addresses, those left by the sweep are those it does not
    free. -/
theorem mem_ptrs_filter {l : List AEntry} (hnodup : (ptrs l).Nodup) (x : Ptr) :
    x ∈ ptrs (l.filter (·.references ≠ 0)) ↔
      x ∈ ptrs l ∧ x ∉ ptrs (l.filter (·.references = 0)) := by
  constructor
  · intro hx
    obtain ⟨e, he, rfl⟩ := mem_ptrs.mp hx
    obtain ⟨he, hne⟩ := List.mem_filter.mp he
    refine ⟨mem_ptrs.mpr ⟨e, he, rfl⟩, ?_⟩
    intro hx'
    obtain ⟨e', he', hptr⟩ := mem_ptrs.mp hx'
    obtain ⟨he', hz⟩ := List.mem_filter.mp he'
    -- an entry stands once, so that it has one counter
    have heq : e' = e := List.inj_on_of_nodup_map hnodup he' he hptr
    subst heq
    exact (of_decide_eq_true hne) (of_decide_eq_true hz)
  · rintro ⟨hx, hx'⟩
    obtain ⟨e, he, rfl⟩ := mem_ptrs.mp hx
    refine mem_ptrs.mpr ⟨e, List.mem_filter.mpr ⟨he, ?_⟩, rfl⟩
    by_contra hz
    exact hx' (mem_ptrs.mpr ⟨e, List.mem_filter.mpr ⟨he, by simpa using hz⟩, rfl⟩)

/-- The entries that are left are some of those before. -/
theorem mem_ptrs_of_filter {l : List AEntry} {c : AEntry → Bool} {x : Ptr}
    (hx : x ∈ ptrs (l.filter c)) : x ∈ ptrs l := by
  obtain ⟨e, he, rfl⟩ := mem_ptrs.mp hx
  exact mem_ptrs.mpr ⟨e, (List.mem_filter.mp he).1, rfl⟩

/-- The sweep frees what it takes off the deleted ring. -/
theorem Accounts.freeDeletedEntries (hacc : Accounts s a leaked)
    (href : Refines s a .freeDeletedEntries s') :
    Accounts s' (a.step .freeDeletedEntries) leaked where
  represents := href.represents
  allocated := by
    have hr := hacc.represents
    have hsub := mem_ptrs_filter (List.nodup_append.mp hr.rep.nodup).2.1
    intro x
    rw [href.allocated x, hacc.allocated x]
    simp only [Op.added, AList.freed, AList.step, List.not_mem_nil, or_false, hsub]
    constructor
    · rintro ⟨hx | hx | hx, hnot⟩
      · exact Or.inl hx
      · exact Or.inr (Or.inl ⟨hx, hnot⟩)
      · exact Or.inr (Or.inr hx)
    · rintro (hx | ⟨hx, hnot⟩ | hx)
      · -- what is freed was on the deleted ring, so neither active nor leaked
        exact ⟨Or.inl hx, fun hmem => hr.rep.disjoint hx (mem_ptrs_of_filter hmem)⟩
      · exact ⟨Or.inr (Or.inl hx), hnot⟩
      · refine ⟨Or.inr (Or.inr hx), fun hmem => hacc.off x hx ?_⟩
        exact List.mem_append_right _ (mem_ptrs_of_filter hmem)
  off := by
    intro x hx
    have hoff := hacc.off x hx
    simp only [List.mem_append, not_or] at hoff
    simp only [AList.step, List.mem_append, not_or]
    exact ⟨hoff.1, fun hmem => hoff.2 (mem_ptrs_of_filter hmem)⟩
  returned := by
    intro x hx
    rw [href.represents.returned]
    have hret := hacc.returned x hx
    rwa [hacc.represents.returned] at hret

/-- A deleted entry goes to the deleted ring or, without references, nowhere. -/
theorem Accounts.delete (hacc : Accounts s a leaked) (ha : Allowed s (.del p))
    (href : Refines s a (.del p) s') :
    Accounts s' (a.step (.del p)) (leaked ++ leaks s (.del p)) := by
  have hr := hacc.represents
  obtain ⟨ys, e, zs, hact, rfl⟩ := hr.active_split ha
  have hnodup : (ptrs (ys ++ e :: zs)).Nodup := by
    have hn := (List.nodup_append.mp hr.rep.nodup).1
    rwa [hact] at hn
  obtain ⟨hfilter, hpick⟩ := filter_split hnodup
  have hrefs : s.heap.references e.ptr = e.references :=
    (hr.rep.activeStored e (by simp [hact])).references
  -- where the entry goes: exactly one of the two lists below has it
  let moved : List AEntry := if e.references > 0 then [e] else []
  have hleaks : leaks s (.del e.ptr) = if e.references > 0 then [] else [e.ptr] := by
    rw [leaks, hrefs]
  have hstep : a.step (.del e.ptr) =
      { a with active := ys ++ zs, deleted := moved ++ a.deleted } := by
    simp only [AList.step, hact, hfilter, hpick, moved]
  have hwhere : ∀ x, x ∈ ptrs moved ∨ x ∈ leaks s (.del e.ptr) ↔ x = e.ptr := by
    intro x
    rw [hleaks]
    by_cases hpos : e.references > 0 <;> simp [moved, hpos]
  have hptrs : ∀ x, x ∈ ptrs a.active ↔ x ∈ ptrs (ys ++ zs) ∨ x = e.ptr := by
    intro x
    rw [hact]
    simp only [ptrs_append, ptrs_cons, List.mem_append, List.mem_cons]
    tauto
  have hnot : e.ptr ∉ ptrs (ys ++ zs) := by
    simp only [ptrs_append, ptrs_cons, List.nodup_append, List.nodup_cons, List.mem_cons] at hnodup
    simp only [ptrs_append, List.mem_append, not_or]
    exact ⟨fun hmem => hnodup.2.2 e.ptr hmem e.ptr (Or.inl rfl) rfl, hnodup.2.1.1⟩
  have hret : ∀ x ∈ ptrs a.active ++ leaked, some x ∈ s'.returned := by
    intro x hx
    rw [href.represents.returned, hstep]
    show some x ∈ a.returned
    rw [← hr.returned]
    exact hacc.returned x hx
  refine ⟨href.represents, ?_, ?_, ?_⟩
  · intro x
    rw [href.allocated x, hacc.allocated x, hstep]
    simp only [Op.added, AList.freed, List.not_mem_nil, or_false, not_false_eq_true, and_true,
      hptrs, ptrs_append moved, List.mem_append, ← hwhere x]
    tauto
  · intro x hx
    rw [hstep]
    simp only [ptrs_append moved, List.mem_append, not_or]
    rcases List.mem_append.mp hx with hx | hx
    · have hoff := hacc.off x hx
      simp only [List.mem_append, hptrs, not_or] at hoff
      refine ⟨by simpa using hoff.1.1, fun hmem => ?_, hoff.2⟩
      exact hoff.1.2 ((hwhere x).mp (Or.inl hmem))
    · -- the entry is leaked, so it was not moved
      have hxe : x = e.ptr := (hwhere x).mp (Or.inr hx)
      subst hxe
      refine ⟨by simpa using hnot, ?_, ?_⟩
      · rw [hleaks] at hx
        by_cases hpos : e.references > 0
        · simp [hpos] at hx
        · simp [moved, hpos]
      · exact hr.rep.disjoint ((hptrs _).mpr (Or.inr rfl))
  · intro x hx
    refine hret x ?_
    rw [hstep] at hx
    simp only [List.mem_append] at hx ⊢
    rcases hx with hx | hx | hx
    · exact Or.inl ((hptrs x).mpr (Or.inl hx))
    · exact Or.inr hx
    · exact Or.inl ((hptrs x).mpr (Or.inr ((hwhere x).mp (Or.inr hx))))

/-- **Step.**  Every call keeps the account; only `doublylinkedlistDel` of an entry without
    references adds to the leaked entries. -/
theorem Accounts.step (hacc : Accounts s a leaked) (ha : Allowed s op)
    (href : Refines s a op s') : Accounts s' (a.step op) (leaked ++ leaks s op) := by
  cases op with
  | del p => exact hacc.delete ha href
  -- ==> the calls that only look at the list, or change counters, move no entry
  | find key =>
    show Accounts s' _ (leaked ++ [])
    rw [List.append_nil]
    exact hacc.same href (ptrs_take a _).1 (ptrs_take a _).2 rfl rfl
  | getFirst =>
    show Accounts s' _ (leaked ++ [])
    rw [List.append_nil]
    exact hacc.same href (ptrs_take a _).1 (ptrs_take a _).2 rfl rfl
  | getLast =>
    show Accounts s' _ (leaked ++ [])
    rw [List.append_nil]
    exact hacc.same href (ptrs_take a _).1 (ptrs_take a _).2 rfl rfl
  | release p =>
    show Accounts s' _ (leaked ++ [])
    rw [List.append_nil]
    exact hacc.same href (by simp [AList.step]) (by simp [AList.step]) rfl rfl
  | add key data mem =>
    show Accounts s' _ (leaked ++ [])
    rw [List.append_nil]
    cases mem with
    | none => exact hacc.same href rfl rfl rfl rfl
    | some p => exact hacc.add ha.1 href
  | freeDeletedEntries =>
    show Accounts s' _ (leaked ++ [])
    rw [List.append_nil]
    exact hacc.freeDeletedEntries href

/-- A call leaks nothing exactly if it does not delete an entry without references. -/
theorem leaks_eq_nil (s : ListState) (op : Op) :
    leaks s op = [] ↔ ∀ p, op = .del p → s.heap.references p > 0 := by
  cases op with
  | del p =>
    simp only [leaks, ite_eq_left_iff, List.cons_ne_nil, imp_false, not_not, Op.del.injEq]
    exact ⟨fun hpos q hq => hq ▸ hpos, fun hall => hall p rfl⟩
  | _ =>
    refine iff_of_true rfl ?_
    intro p hp
    cases hp

/-- **Run.**  There is an account of the entries, and nothing has leaked exactly if every entry
    was referenced when it was deleted. -/
theorem accounts_run (hr : Run DoublyLinkedList.step (doublylinkedlistAlloc h plist) hist s)
    (hok : ∀ x ∈ hist, Allowed x.1 x.2.1) :
    ∃ leaked, Accounts s (abstractRun hist) leaked ∧ (leaked = [] ↔ DelsHeld hist) := by
  -- induction on the run, whose last call either leaks an entry or does not
  induction hr with
  | nil => exact ⟨[], accounts_alloc h plist, by simp [DelsHeld]⟩
  | @snoc hist s s' l _ hs ih =>
    obtain ⟨leaked, hacc, hiff⟩ := ih fun x hx => hok x (by simp [hx])
    have ha : Allowed s l.1 := hok (s, l) (by simp)
    have href := refines_of_exec hacc.represents ha hs
    refine ⟨leaked ++ leaks s l.1, ?_, ?_⟩
    · rw [abstractRun_snoc]
      exact hacc.step ha href
    · rw [List.append_eq_nil_iff, hiff, leaks_eq_nil]
      simp only [DelsHeld, List.mem_append, List.mem_singleton]
      constructor
      · rintro ⟨hold, hnew⟩ x (hx | rfl) p hp
        · exact hold x hx p hp
        · exact hnew p hp
      · intro hall
        exact ⟨fun x hx => hall x (Or.inl hx), fun p hp => hall (s, l) (Or.inr rfl) p hp⟩

/-! ### Freeing the list -/

/-- A loop of `doublylinkedlistFree` empties its ring, if every round keeps what `R` says about the
    heap and the entries that are left. -/
theorem freeLoop_empties {head : Ptr} {R : Heap → List AEntry → Prop} {es : List AEntry}
    (hring : ∀ h es, R h es → h.Ring head (ptrs es))
    (hround : ∀ h e es, R h (e :: es) →
      e.ptr ≠ head ∧ R ((entryHeaderDel h e.ptr).free e.ptr) es)
    (hr : R h es) {n : ℕ} (hn : es.length < n) :
    ∃ h', freeLoop head n h = some h' ∧ R h' [] ∧
      ∀ x, h'.allocated x = true ↔ h.allocated x = true ∧ x ∉ ptrs es := by
  -- every round frees the first entry of the ring
  induction es generalizing h n with
  | nil =>
    obtain ⟨m, rfl⟩ := Nat.exists_eq_add_of_lt hn
    have hnext : h.next head = head := Ring.next_head (hring h [] hr)
    exact ⟨h, by simp [freeLoop, hnext], hr, by simp⟩
  | cons e es ih =>
    obtain ⟨m, rfl⟩ : ∃ m, n = m + 1 := ⟨n - 1, by omega⟩
    have hnext : h.next head = e.ptr := Ring.next_head (hring h _ hr)
    obtain ⟨hne, hr'⟩ := hround h e es hr
    obtain ⟨h', hloop, hrep, halloc⟩ := ih hr' (n := m) (by simp at hn; omega)
    refine ⟨h', ?_, hrep, ?_⟩
    · simp only [freeLoop, hnext, if_neg hne]
      exact hloop
    · intro x
      rw [halloc x, allocated_unlink_free]
      simp [and_assoc]

/-- The first loop empties the active ring. -/
theorem freeLoop_active (hr : Rep h plist act del) {n : ℕ} (hn : act.length < n) :
    ∃ h', freeLoop plist n h = some h' ∧ Rep h' plist [] del ∧
      ∀ x, h'.allocated x = true ↔ h.allocated x = true ∧ x ∉ ptrs act := by
  refine freeLoop_empties (R := fun h es => Rep h plist es del) (fun _ _ hr => hr.activeRing) ?_ hr
    hn
  intro h e es hr
  have hoff : e.ptr ∉ ptrs es ++ ptrs del := by
    have hnodup := hr.nodup
    rw [ptrs_cons, List.cons_append] at hnodup
    exact (List.nodup_cons.mp hnodup).1
  exact ⟨hr.ptr_ne_plist (by simp),
    (Rep.unlinkActive (show Rep h plist ([] ++ e :: es) del from hr)).free hoff⟩

/-- The second loop empties the deleted ring. -/
theorem freeLoop_deleted (hr : Rep h plist act del) {n : ℕ} (hn : del.length < n) :
    ∃ h', freeLoop (deletedEntries plist) n h = some h' ∧ Rep h' plist act [] ∧
      ∀ x, h'.allocated x = true ↔ h.allocated x = true ∧ x ∉ ptrs del := by
  refine freeLoop_empties (R := fun h es => Rep h plist act es) (fun _ _ hr => hr.deletedRing) ?_ hr
    hn
  intro h e es hr
  have hoff : e.ptr ∉ ptrs act ++ ptrs es := by
    have hnodup := hr.nodup
    rw [ptrs_cons] at hnodup
    exact (List.nodup_middle.mp hnodup |> List.nodup_cons.mp).1
  exact ⟨hr.ptr_ne_deletedEntries (by simp),
    (Rep.unlinkDeleted (show Rep h plist act ([] ++ e :: es) from hr)).free hoff⟩

theorem freeLoop_mono {h' : Heap} {n m : ℕ} (hnm : n ≤ m) (hl : freeLoop p n h = some h') :
    freeLoop p m h = some h' := by
  induction n generalizing m h with
  | zero => cases hl
  | succ n ih =>
    obtain ⟨m, rfl⟩ : ∃ k, m = k + 1 := ⟨m - 1, by omega⟩
    simp only [freeLoop] at hl ⊢
    split
    · rwa [if_pos ‹_›] at hl
    · rw [if_neg ‹_›] at hl
      exact ih (by omega) hl

/-- `doublylinkedlistFree` returns, and has freed the entries of both rings. -/
theorem doublylinkedlistFree_frees (hr : Represents s a) :
    ∃ h', (∀ n, a.active.length + a.deleted.length < n → doublylinkedlistFree n s = some h') ∧
      ∀ x, h'.allocated x = true ↔
        s.heap.allocated x = true ∧ x ∉ ptrs a.active ∧ x ∉ ptrs a.deleted := by
  obtain ⟨h₁, hloop₁, hrep₁, halloc₁⟩ := freeLoop_active hr.rep (Nat.lt_succ_self _)
  obtain ⟨h₂, hloop₂, -, halloc₂⟩ := freeLoop_deleted hrep₁ (Nat.lt_succ_self _)
  refine ⟨h₂, ?_, ?_⟩
  · intro n hn
    refine Option.bind_eq_some_iff.mpr ⟨_, hr.lockActive, ?_⟩
    refine Option.bind_eq_some_iff.mpr
      ⟨{ s with isActiveEntriesLocked := true, isDeletedEntriesLocked := true }, ?_, ?_⟩
    · simp [ListState.lockDeleted, hr.deletedUnlocked]
    · refine Option.bind_eq_some_iff.mpr ⟨h₁, freeLoop_mono (by omega) hloop₁, ?_⟩
      exact freeLoop_mono (by omega) hloop₂
  · intro x
    rw [halloc₂ x, halloc₁ x, and_assoc]

/-! ### No entry is lost -/

/-- An entry that has not leaked is accounted for, and a leaked one is not. -/
theorem Accounts.accounted_iff (hacc : Accounts s a leaked) (p : Ptr) :
    Accounted s p ↔ p ∉ leaked := by
  have hr := hacc.represents.rep
  rw [Accounted, Ring.onRing_iff hr.activeRing, Ring.onRing_iff hr.deletedRing,
    ← Bool.not_eq_true, hacc.allocated p]
  constructor
  -- a leaked entry is on neither ring and still allocated
  · intro hone hleak
    have hoff := hacc.off p hleak
    simp only [List.mem_append, not_or] at hoff
    rcases hone with ⟨hp, -, -⟩ | ⟨-, hp, -⟩ | ⟨-, -, hp⟩
    · exact hoff.1 hp
    · exact hoff.2 hp
    · exact hp (Or.inr (Or.inr hleak))
  -- any other entry is on one ring, or is not allocated
  · intro hleak
    by_cases hact : p ∈ ptrs a.active
    · exact Or.inl ⟨hact, hr.disjoint hact, Or.inl hact⟩
    · by_cases hdel : p ∈ ptrs a.deleted
      · exact Or.inr (Or.inl ⟨hact, hdel, Or.inr (Or.inl hdel)⟩)
      · refine Or.inr (Or.inr ⟨hact, hdel, ?_⟩)
        rintro (hp | hp | hp)
        · exact hact hp
        · exact hdel hp
        · exact hleak hp

/-- **No entry is lost**, in a run of permitted calls, exactly if every entry was referenced when
    it was deleted; and exactly then `doublylinkedlistFree` frees all entries that are left. -/
theorem entries_accounted (hr : Run DoublyLinkedList.step (doublylinkedlistAlloc h plist) hist s)
    (hok : ∀ x ∈ hist, Allowed x.1 x.2.1) :
    ((∀ p, some p ∈ s.returned → Accounted s p) ↔ DelsHeld hist) ∧
    ∃ N h', (∀ n, N < n → doublylinkedlistFree n s = some h') ∧
      ((∀ p, some p ∈ s.returned → h'.allocated p = false) ↔ DelsHeld hist) := by
  obtain ⟨leaked, hacc, hiff⟩ := accounts_run hr hok
  obtain ⟨h', hfree, halloc⟩ := doublylinkedlistFree_frees hacc.represents
  have hnone : (∀ p, some p ∈ s.returned → p ∉ leaked) ↔ leaked = [] := by
    constructor
    · intro hall
      rw [List.eq_nil_iff_forall_not_mem]
      intro p hp
      exact hall p (hacc.returned p (List.mem_append_right _ hp)) hp
    · rintro rfl
      simp
  refine ⟨?_, _, h', hfree, ?_⟩
  · simp only [hacc.accounted_iff]
    rw [hnone, hiff]
  · rw [← hiff, ← hnone]
    -- what is left after freeing both rings is what has leaked
    have hleft : ∀ p, h'.allocated p = false ↔ p ∉ leaked := by
      intro p
      rw [← Bool.not_eq_true, halloc p, hacc.allocated p]
      have hoff := hacc.off p
      simp only [List.mem_append, not_or] at hoff
      tauto
    simp only [hleft]

/-! ### Two runs

An entry is added and deleted: once while the reference of `doublylinkedlistAdd` is still held,
once after it has been released, as the library's own test does. -/

/-- Add an entry, with one reference, and delete it. -/
theorem entries_accounted_held :
    ∃ hist s, Run DoublyLinkedList.step (doublylinkedlistAlloc Heap.zero 64) hist s ∧
      s.returned = [some 1000] ∧
      ((∀ p, some p ∈ s.returned → Accounted s p) ↔ DelsHeld hist) := by
  obtain ⟨hist, s, hr, hok, hret⟩ := exists_run_of_play DoublyLinkedList.step
    (doublylinkedlistAlloc Heap.zero 64) allowedCheck (fun s => s.returned = [some 1000])
    [(.add 5 [1, 2] (some 1000), 0), (.del 1000, 0)] (by decide +kernel)
  have hall : ∀ x ∈ hist, Allowed x.1 x.2.1 := fun x hx => allowed_of_check (hok x hx)
  exact ⟨hist, s, hr, by simpa using hret, (entries_accounted hr hall).1⟩

/-- Add an entry, release its only reference, and delete it: it is on neither ring and it has
    not been freed. -/
theorem released_entry_lost :
    ∃ hist s, Run DoublyLinkedList.step (doublylinkedlistAlloc Heap.zero 64) hist s ∧
      (∀ x ∈ hist, Allowed x.1 x.2.1) ∧ some 1000 ∈ s.returned ∧ ¬ Accounted s 1000 := by
  obtain ⟨hist, s, hr, hok, hbad⟩ := exists_run_of_play DoublyLinkedList.step
    (doublylinkedlistAlloc Heap.zero 64) allowedCheck
    (fun s => s.returned = [some 1000] ∧ s.heap.next s.plist = s.plist ∧
      s.heap.next (deletedEntries s.plist) = deletedEntries s.plist ∧ s.heap.allocated 1000)
    [(.add 5 [1, 2] (some 1000), 0), (.release 1000, 0), (.del 1000, 0)] (by decide +kernel)
  simp only [decide_eq_true_eq] at hbad
  obtain ⟨hret, hact, hdel, halloc⟩ := hbad
  -- a ring whose head links to itself has no entries
  have hoff : ∀ a x : Ptr, s.heap.next a = a → ¬ OnRing s.heap.next a x := by
    rintro a x ha ⟨hne, k, hk⟩
    exact hne (hk.symm.trans (Function.iterate_fixed ha k))
  refine ⟨hist, s, hr, fun x hx => allowed_of_check (hok x hx), by simp [hret], ?_⟩
  rintro (⟨hp, -, -⟩ | ⟨-, hp, -⟩ | ⟨-, -, hp⟩)
  · exact hoff _ _ hact hp
  · exact hoff _ _ hdel hp
  · rw [halloc] at hp
    cases hp

end Niuchacz.DoublyLinkedList
