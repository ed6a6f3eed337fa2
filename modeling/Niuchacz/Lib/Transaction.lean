import Mathlib.Logic.Basic

namespace Lib.Transaction

/-!
# Transactions with exceptions

A session of a database works on a copy of the committed state until it commits or rolls back; an
exception leaves what has been done so far as it is.  `Txn ε σ α` are the programs of a session.

* `view`, `work`, `commit`, `rollback` — the commands; `session` — a program run as a transaction
  of its own.
* `Triple` — pre- and postconditions, one of them for the case of an exception, with one rule for
  each way to put programs together.
* `Ensures` — the program does not commit, and what holds if it returns.
* `session_atomic` — a program that commits at its end and rolls back after any exception does all
  or nothing.
-/

variable {ε σ α β : Type}

/-- What a session knows: the committed state, the state it works on, and the states that it has
    committed so far, in order. -/
structure Session (σ : Type) where
  committed : σ
  working : σ
  commits : List σ

/-- Programs of a session. -/
def Txn (ε σ α : Type) := Session σ → Except ε α × Session σ

instance : Monad (Txn ε σ) where
  pure a := fun s => (.ok a, s)
  bind x f := fun s => match x s with
    | (.ok a, s') => f a s'
    | (.error e, s') => (.error e, s')

instance : MonadExcept ε (Txn ε σ) where
  throw e := fun s => (.error e, s)
  tryCatch x f := fun s => match x s with
    | (.ok a, s') => (.ok a, s')
    | (.error e, s') => f e s'

theorem bind_assoc {γ : Type} (x : Txn ε σ α) (f : α → Txn ε σ β) (g : β → Txn ε σ γ) :
    x >>= f >>= g = x >>= fun a => f a >>= g := by
  funext s
  simp only [Bind.bind]
  cases x s with
  | mk result s' => cases result <;> rfl

/-- Read the state. -/
def view : Txn ε σ σ := fun s => (.ok s.working, s)

/-- Change the state. -/
def work (f : σ → σ) : Txn ε σ Unit := fun s => (.ok (), { s with working := f s.working })

def commit : Txn ε σ Unit := fun s =>
  (.ok (), { s with committed := s.working, commits := s.commits ++ [s.working] })

def rollback : Txn ε σ Unit := fun s => (.ok (), { s with working := s.committed })

/-- A call that changes nothing and may fail. -/
def call (failure : Option ε) : Txn ε σ Unit :=
  match failure with
  | none => pure ()
  | some e => throw e

/-- The result of a computation outside the database. -/
def outcome : Except ε α → Txn ε σ α
  | .ok a => pure a
  | .error e => throw e

/-- What a session that is over leaves behind. -/
structure Done (ε σ α : Type) where
  result : Except ε α
  committed : σ
  commits : List σ

/-- Run a program in a session of its own. -/
def session (x : Txn ε σ α) (db : σ) : Done ε σ α :=
  let (result, s) := x ⟨db, db, []⟩
  ⟨result, s.committed, s.commits⟩

/-! ### Pre- and postconditions -/

/-- What holds at the end of a program: `Q` if it returns, `E` if it raises an exception. -/
def After (Q : α → Session σ → Prop) (E : ε → Session σ → Prop) :
    Except ε α × Session σ → Prop
  | (.ok a, s) => Q a s
  | (.error e, s) => E e s

/-- From states with `P` the program returns with `Q`, or raises an exception with `E`. -/
def Triple (P : Session σ → Prop) (x : Txn ε σ α) (Q : α → Session σ → Prop)
    (E : ε → Session σ → Prop) : Prop := ∀ s, P s → After Q E (x s)

section
variable {P P' : Session σ → Prop} {Q Q' : α → Session σ → Prop} {R : β → Session σ → Prop}
  {E E' : ε → Session σ → Prop} {x : Txn ε σ α} {f : α → Txn ε σ β}

/-- **Return.** -/
theorem Triple.pure {a : α} (h : ∀ s, P s → Q a s) : Triple P (pure a : Txn ε σ α) Q E := h

/-- **Exception.** -/
theorem Triple.throw {e : ε} (h : ∀ s, P s → E e s) : Triple P (throw e : Txn ε σ α) Q E := h

/-- **Sequence.** -/
theorem Triple.bind (hx : Triple P x Q E) (hf : ∀ a, Triple (Q a) (f a) R E) :
    Triple P (x >>= f) R E := by
  intro s hs
  have hres := hx s hs
  show After R E (match x s with
    | (.ok a, s') => f a s'
    | (.error e, s') => (.error e, s'))
  cases h : x s with
  | mk result s' =>
    rw [h] at hres
    cases result with
    | ok a => exact hf a s' hres
    | error e => exact hres

/-- **Exception block.** -/
theorem Triple.tryCatch {handler : ε → Txn ε σ α} (hx : Triple P x Q E)
    (hh : ∀ e, Triple (E e) (handler e) Q E') : Triple P (tryCatch x handler) Q E' := by
  intro s hs
  have hres := hx s hs
  show After Q E' (match x s with
    | (.ok a, s') => (.ok a, s')
    | (.error e, s') => handler e s')
  cases h : x s with
  | mk result s' =>
    rw [h] at hres
    cases result with
    | ok a => exact hres
    | error e => exact hh e s' hres

/-- **Consequence.** -/
theorem Triple.weaken (hx : Triple P x Q E) (hP : ∀ s, P' s → P s) (hQ : ∀ a s, Q a s → Q' a s)
    (hE : ∀ e s, E e s → E' e s) : Triple P' x Q' E' := by
  intro s hs
  have hres := hx s (hP s hs)
  cases h : x s with
  | mk result s' =>
    rw [h] at hres
    cases result with
    | ok a => exact hQ a s' hres
    | error e => exact hE e s' hres

end

/-! ### Programs that do not commit -/

/-- The session has not committed anything since the start `(c, cs)`, and its state has `P`. -/
structure Pending (c : σ) (cs : List σ) (P : σ → Prop) (s : Session σ) : Prop where
  committed : s.committed = c
  commits : s.commits = cs
  working : P s.working

/-- The program does not commit; from a state with `P` it comes to one with `Q`, or raises an
    exception. -/
def Ensures (P : σ → Prop) (x : Txn ε σ α) (Q : α → σ → Prop) : Prop :=
  ∀ c cs, Triple (Pending c cs P) x (fun a => Pending c cs (Q a))
    (fun _ => Pending c cs fun _ => True)

section
variable {P P' : σ → Prop} {Q Q' : α → σ → Prop} {R : β → σ → Prop} {x : Txn ε σ α}
  {f : α → Txn ε σ β}

/-- A program that only returns commits nothing. -/
theorem Ensures.pure {a : α} (h : ∀ w, P w → Q a w) : Ensures P (pure a : Txn ε σ α) Q :=
  fun _ _ => Triple.pure fun _ hs => ⟨hs.committed, hs.commits, h _ hs.working⟩

/-- Nor does one that raises an exception; of the state nothing is asked then. -/
theorem Ensures.throw {e : ε} : Ensures P (throw e : Txn ε σ α) Q :=
  fun _ _ => Triple.throw fun _ hs => ⟨hs.committed, hs.commits, trivial⟩

/-- Programs that do not commit may be put together. -/
theorem Ensures.bind (hx : Ensures P x Q) (hf : ∀ a, Ensures (Q a) (f a) R) :
    Ensures P (x >>= f) R := fun c cs => (hx c cs).bind fun a => hf a c cs

/-- A stronger precondition and a weaker postcondition. -/
theorem Ensures.weaken (hx : Ensures P x Q) (hP : ∀ w, P' w → P w) (hQ : ∀ a w, Q a w → Q' a w) :
    Ensures P' x Q' :=
  fun c cs => (hx c cs).weaken (fun _ hs => ⟨hs.committed, hs.commits, hP _ hs.working⟩)
    (fun a _ hs => ⟨hs.committed, hs.commits, hQ a _ hs.working⟩) fun _ _ hs => hs

theorem Ensures.view : Ensures P (view : Txn ε σ σ) fun w' w => w' = w ∧ P w :=
  fun _ _ _ hs => ⟨hs.committed, hs.commits, rfl, hs.working⟩

/-- A change of the state that leads from `P` to `Q`. -/
theorem Ensures.work {g : σ → σ} {Q : Unit → σ → Prop} (h : ∀ w, P w → Q () (g w)) :
    Ensures P (work g : Txn ε σ Unit) Q :=
  fun _ _ _ hs => ⟨hs.committed, hs.commits, h _ hs.working⟩

/-- A call from which the program comes back has changed nothing. -/
theorem Ensures.call (failure : Option ε) : Ensures P (call failure) fun _ => P := by
  cases failure with
  | none => exact Ensures.pure fun _ h => h
  | some e => exact Ensures.throw

theorem Ensures.outcome (result : Except ε α) : Ensures P (outcome result) fun _ => P := by
  cases result with
  | ok a => exact Ensures.pure fun _ h => h
  | error e => exact Ensures.throw

/-- A call in front of a program. -/
theorem Ensures.call_bind {failure : Option ε} {y : Unit → Txn ε σ β} (hy : Ensures P (y ()) R) :
    Ensures P (Transaction.call failure >>= y) R := (Ensures.call failure).bind fun _ => hy

/-! ### All or nothing -/

/-- **All or nothing.**  A program that does not commit, followed by a commit, with a rollback after
    any exception: either one state is committed, which the program has come to, or none. -/
theorem session_atomic (hx : Ensures P x Q) (wrap : ε → ε) (db : σ) (hdb : P db) :
    let done := session
      (tryCatch (do let _ ← x; commit) fun e => do rollback; throw (wrap e)) db
    (done.result = .ok () ∧ done.commits = [done.committed] ∧ ∃ a, Q a done.committed) ∨
      (∃ e, done.result = .error (wrap e)) ∧ done.commits = [] ∧ done.committed = db := by
  have hrun : Triple (Pending db [] P) (tryCatch (do let _ ← x; commit) fun e => do
      rollback; throw (wrap e) : Txn ε σ Unit)
      (fun _ s => s.commits = [s.committed] ∧ ∃ a, Q a s.committed)
      (fun e' s => (∃ e, e' = wrap e) ∧ s.commits = [] ∧ s.committed = db) := by
    refine Triple.tryCatch (E := fun _ => Pending db [] fun _ => True) ?_ ?_
    -- the program returns: its state is committed
    · refine (hx db []).bind fun a s hs => ?_
      show _ ∧ _
      refine ⟨?_, a, hs.working⟩
      show s.commits ++ [s.working] = [s.working]
      rw [hs.commits, List.nil_append]
    -- it raises an exception: nothing has been committed, and the work is undone
    · intro e s hs
      exact ⟨⟨e, rfl⟩, hs.commits, hs.committed⟩
  have hres := hrun ⟨db, db, []⟩ ⟨rfl, rfl, hdb⟩
  unfold session
  revert hres
  cases (tryCatch (do let _ ← x; commit) fun e => do
      rollback; throw (wrap e) : Txn ε σ Unit) ⟨db, db, []⟩ with
  | mk result s =>
    intro hres
    cases result with
    | ok a => exact Or.inl ⟨rfl, hres⟩
    | error e =>
      obtain ⟨⟨e', rfl⟩, hcommits, hcommitted⟩ := hres
      exact Or.inr ⟨⟨e', rfl⟩, hcommits, hcommitted⟩

end

end Lib.Transaction
