import Dnsmasq.Lib.Past

/-!
Programs that read octets of a memory. What such a program returns depends on the octets it
reads and on no others.
-/
namespace Dnsmasq.Lib

open List

inductive Peek (α : Type) : Type
  | done (a : α)
  | read (i : ℕ) (next : UInt8 → Peek α)

namespace Peek

variable {α β : Type}

def bind : Peek α → (α → Peek β) → Peek β
  | done a, f => f a
  | read i next, f => read i fun c => (next c).bind f

instance : Monad Peek where
  pure := done
  bind := bind

def octet (i : ℕ) : Peek UInt8 := read i done

def octets (i : ℕ) : ℕ → Peek (List UInt8)
  | 0 => pure []
  | n + 1 => do
      let c ← octet i
      let cs ← octets (i + 1) n
      pure (c :: cs)

def forEach (f : β → Peek α) : List β → Peek (List α)
  | [] => pure []
  | x :: xs => do
      let a ← f x
      let as ← forEach f xs
      pure (a :: as)

/-- The loop ends with the first result that `last` holds for. -/
def forUntil (f : β → Peek α) (last : α → Bool) : List β → Peek (List α)
  | [] => pure []
  | x :: xs => do
      let a ← f x
      if last a then pure [a]
      else do
        let as ← forUntil f last xs
        pure (a :: as)

def run (mem : ℕ → UInt8) : Peek α → α
  | done a => a
  | read i next => (next (mem i)).run mem

/-- Only the first `n` octets are read. -/
def Inside (n : ℕ) (mem : ℕ → UInt8) : Peek α → Prop
  | done _ => True
  | read i next => i < n ∧ (next (mem i)).Inside n mem

instance decidableInside (n : ℕ) (mem : ℕ → UInt8) : (p : Peek α) → Decidable (p.Inside n mem)
  | done _ => .isTrue trivial
  | read i next =>
    have := decidableInside n mem (next (mem i))
    inferInstanceAs (Decidable (i < n ∧ (next (mem i)).Inside n mem))

variable {n : ℕ} {mem mem' : ℕ → UInt8}

end Peek

end Dnsmasq.Lib
