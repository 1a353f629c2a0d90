import Automata.Error

/-!
# Minting states

The last ordinal is never handed out: there the counter stops for good. What an action has
minted before it fails stays minted.
-/

namespace Automata

structure Allocator where
  counter : UInt32
deriving DecidableEq

inductive Fault where
  | exhausted
  | capacity
  | refused (e : Error)
deriving DecidableEq

def Fault.message : Fault → String
  | exhausted => "state allocator is exhausted"
  | capacity => "capacity overflow"
  | refused e => e.message

/-- An action with access to an allocator; a failure keeps the counter where it is. -/
abbrev Minting := EStateM Fault Allocator

def Minting.ofExcept {α : Type} : Except Error α → Minting α
  | .ok a => pure a
  | .error e => throw (.refused e)

namespace Minting

variable {α β : Type} {x : Minting α} {f : α → Minting β} {m m' m'' : Allocator} {a : α} {b : β}

theorem ofExcept_ok (a : α) : ofExcept (.ok a) = (pure a : Minting α) := rfl

theorem ofExcept_error (e : Error) : ofExcept (.error e : Except Error α) = throw (.refused e) := rfl

theorem bind_of_ok (h : x m = .ok a m') : (x >>= f) m = f a m' := by
  simp only [bind, EStateM.bind, h]

theorem bind_of_error {e : Fault} (h : x m = .error e m') : (x >>= f) m = .error e m' := by
  simp only [bind, EStateM.bind, h]

theorem bind_eq_ok : (x >>= f) m = .ok b m'' ↔ ∃ a m', x m = .ok a m' ∧ f a m' = .ok b m'' := by
  cases h : x m with
  | ok a m' => simp [bind_of_ok h, and_assoc]
  | error e m' => simp [bind_of_error h]

end Minting

namespace Allocator

instance : Inhabited Allocator := ⟨⟨0⟩⟩

/-- How many states are left below the last ordinal. -/
def room (a : Allocator) : Nat := 4294967295 - a.counter.toNat

def reset (_ : Allocator) : Allocator := ⟨0⟩

def mint : Minting State := fun a =>
  if a.room = 0 then .error .exhausted a else .ok ⟨a.counter⟩ ⟨a.counter + 1⟩

def mintEach : Nat → Minting (List State)
  | 0 => pure []
  | n + 1 => do
    let q ← mint
    let l ← mintEach n
    return q :: l

/-- The most states that fit in a list: each takes four bytes, and the bytes are counted by a signed word. -/
def listCapacity : Nat := 9223372036854775807 / 4

/-- Makes room for the whole list before the first state is minted. -/
def mintMany (n : UInt64) : Minting (List State) :=
  if listCapacity < n.toNat then throw .capacity else mintEach n.toNat

theorem mint_of_room {a : Allocator} (h : 0 < a.room) : mint a = .ok ⟨a.counter⟩ ⟨a.counter + 1⟩ := by
  simp [mint, Nat.ne_of_gt h]

theorem mint_of_exhausted {a : Allocator} (h : a.room = 0) : mint a = .error .exhausted a := by
  simp [mint, h]

theorem room_succ {a : Allocator} (h : 0 < a.room) : (mk (a.counter + 1)).room + 1 = a.room := by
  unfold room at h ⊢
  have hlt : a.counter.toNat + (1 : UInt32).toNat < 2 ^ 32 := by
    have : (1 : UInt32).toNat = 1 := rfl
    omega
  have hc : (a.counter + 1).toNat = a.counter.toNat + 1 := by
    rw [UInt32.toNat_add, Nat.mod_eq_of_lt hlt]; rfl
  simp only [hc]
  omega

end Allocator

end Automata
