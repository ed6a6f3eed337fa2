import Mathlib.Data.List.Basic

namespace Lib.Access

/-!
# Computations that record what they read

`Traced ι α` is a value with the indices that have been read to compute it, in order.  A program
on a buffer is written in this monad, and that it stays inside the buffer is a statement about
`reads`.

* `read`, `readRange` — one place of a buffer, and some places in a row.
* `value_bind`, `reads_bind` — the simp set: a sequence reads what its parts read.
-/

universe u v

variable {ι : Type v} {α β : Type u}

/-- A value and the indices that have been read for it. -/
structure Traced (ι : Type v) (α : Type u) where
  value : α
  reads : List ι

instance : Monad (Traced ι) where
  pure a := ⟨a, []⟩
  bind x f := ⟨(f x.value).value, x.reads ++ (f x.value).reads⟩

@[simp] theorem value_pure (a : α) : (pure a : Traced ι α).value = a := rfl

@[simp] theorem reads_pure (a : α) : (pure a : Traced ι α).reads = [] := rfl

@[simp] theorem value_bind (x : Traced ι α) (f : α → Traced ι β) :
    (x >>= f).value = (f x.value).value := rfl

@[simp] theorem reads_bind (x : Traced ι α) (f : α → Traced ι β) :
    (x >>= f).reads = x.reads ++ (f x.value).reads := rfl

/-- Read one place of a buffer. -/
def read (buf : ι → α) (i : ι) : Traced ι α := ⟨buf i, [i]⟩

@[simp] theorem value_read (buf : ι → α) (i : ι) : (read buf i).value = buf i := rfl

@[simp] theorem reads_read (buf : ι → α) (i : ι) : (read buf i).reads = [i] := rfl

/-- Read the `n` places from `start` on. -/
def readRange (buf : ℕ → α) (start n : ℕ) : Traced ℕ (Vector α n) :=
  ⟨Vector.ofFn fun i => buf (start + i), List.range' start n⟩

@[simp] theorem value_readRange (buf : ℕ → α) (start n : ℕ) :
    (readRange buf start n).value = Vector.ofFn fun i : Fin n => buf (start + i) := rfl

@[simp] theorem reads_readRange (buf : ℕ → α) (start n : ℕ) :
    (readRange buf start n).reads = List.range' start n := rfl

end Lib.Access
