import FeedHandler.Foundations.Bytes

/-!
# Programs that read memory

A program that asks for bytes of memory one at a time, with its result and the addresses it asks
for on a given memory. The next address may depend on the bytes read before it. `run_congr` is the
reason to know the addresses: memories that agree on them give the same result. `runWithin` is for
memory that ends: a read behind it has no result.
-/

namespace FeedHandler.Bytes

universe u v

/-- A program that reads bytes. -/
inductive Reader (α : Type u) where
  | done (a : α)
  | read (addr : Nat) (next : UInt8 → Reader α)

namespace Reader

/-- Continue with the result. -/
def bind {α : Type u} {β : Type v} : Reader α → (α → Reader β) → Reader β
  | .done a, f => f a
  | .read addr next, f => .read addr fun b => (next b).bind f

instance : Monad Reader where
  pure := .done
  bind := bind

variable {α : Type u} (mem : Nat → UInt8)

/-- The result on a memory. -/
def run : Reader α → α
  | .done a => a
  | .read addr next => run (next (mem addr))

/-- The addresses read on a memory, in order. -/
def trace : Reader α → List Nat
  | .done _ => []
  | .read addr next => addr :: trace (next (mem addr))

/-- The result on a memory of `n` bytes, if no byte behind it is read. -/
def runWithin (n : Nat) : Reader α → Option α
  | .done a => some a
  | .read addr next => if addr < n then runWithin n (next (mem addr)) else none

/-- One byte. -/
def byte (addr : Nat) : Reader UInt8 := .read addr .done

/-- `n` bytes from an address on. -/
def bytes (addr : Nat) : Nat → Reader (List UInt8)
  | 0 => .done []
  | n + 1 => .read addr fun b => (bytes (addr + 1) n).bind fun bs => .done (b :: bs)

section Bind

variable {mem} {β : Type v}

theorem run_bind (p : Reader α) (f : α → Reader β) :
    (p.bind f).run mem = (f (p.run mem)).run mem := by
  induction p with
  | done a => rfl
  | read addr next ih => exact ih (mem addr)

theorem trace_bind (p : Reader α) (f : α → Reader β) :
    (p.bind f).trace mem = p.trace mem ++ (f (p.run mem)).trace mem := by
  induction p with
  | done a => rfl
  | read addr next ih => exact congrArg (addr :: ·) (ih (mem addr))

end Bind

section Steps

variable {mem} {β : Type u}

@[simp] theorem run_pure (a : α) : (pure a : Reader α).run mem = a := rfl

@[simp] theorem run_byte (addr : Nat) : (byte addr).run mem = mem addr := rfl

@[simp] theorem run_step (p : Reader α) (f : α → Reader β) :
    (p >>= f).run mem = (f (p.run mem)).run mem := run_bind p f

@[simp] theorem trace_pure (a : α) : (pure a : Reader α).trace mem = [] := rfl

@[simp] theorem trace_byte (addr : Nat) : (byte addr).trace mem = [addr] := rfl

@[simp] theorem trace_step (p : Reader α) (f : α → Reader β) :
    (p >>= f).trace mem = p.trace mem ++ (f (p.run mem)).trace mem := trace_bind p f

end Steps

section Bytes

variable {mem}

@[simp] theorem run_bytes (addr n : Nat) : (bytes addr n).run mem = slice mem addr n := by
  induction n generalizing addr with
  | zero => rfl
  | succ n ih =>
      have hslice : slice mem addr (n + 1) = mem addr :: slice mem (addr + 1) n := by
        rw [Nat.add_comm, slice_add]
        rfl
      rw [hslice, ← ih (addr + 1)]
      exact run_bind (bytes (addr + 1) n) _

@[simp] theorem mem_trace_bytes_iff {addr n a : Nat} :
    a ∈ (bytes addr n).trace mem ↔ addr ≤ a ∧ a < addr + n := by
  induction n generalizing addr with
  | zero => simp [bytes, trace]
  | succ n ih =>
      have htail : ((bytes (addr + 1) n).bind fun bs => .done (mem addr :: bs)).trace mem =
          (bytes (addr + 1) n).trace mem := by
        rw [trace_bind]
        exact List.append_nil _
      rw [bytes, trace, htail, List.mem_cons, ih]
      omega

end Bytes

/-- A program has its result on a memory that holds all addresses it reads, and only there. -/
theorem run_within_eq_some_iff {mem : Nat → UInt8} {n : Nat} {p : Reader α} {a : α} :
    p.runWithin mem n = some a ↔ (∀ addr ∈ p.trace mem, addr < n) ∧ p.run mem = a := by
  induction p with
  | done b => simp [runWithin, trace, run]
  | read addr next ih =>
      rw [runWithin, trace, run, List.forall_mem_cons]
      split
      next haddr => rw [ih, and_iff_right haddr]
      next haddr => simp [haddr]

/-- Memories that agree on the addresses read give the same result and the same reads. -/
theorem run_congr {mem mem' : Nat → UInt8} {p : Reader α}
    (h : ∀ a ∈ p.trace mem, mem a = mem' a) :
    p.run mem = p.run mem' ∧ p.trace mem = p.trace mem' := by
  induction p with
  | done a => exact ⟨rfl, rfl⟩
  | read addr next ih =>
      have hbyte : mem addr = mem' addr := h addr List.mem_cons_self
      obtain ⟨hrun, htrace⟩ := ih (mem addr) fun a ha => h a (.tail _ ha)
      rw [run, run, trace, trace, ← hbyte]
      exact ⟨hrun, congrArg (addr :: ·) htrace⟩

end Reader

end FeedHandler.Bytes
