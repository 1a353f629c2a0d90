import Automata.Proofs.Minting

/-! # Minting in sequence -/

namespace Automata

/-- What is left when an action has ended, in whichever way. -/
def leftBy {ε σ α : Type} : EStateM.Result ε σ α → σ
  | .ok _ s => s
  | .error _ s => s

theorem Meets.leftBy {ε σ α : Type} {x : EStateM ε σ α} {s : σ} {P : σ → Prop}
    (h : Meets x s (fun _ => P) fun _ => P) : P (leftBy (x s)) := by
  cases hx : x s with
  | ok a s' => exact h.of_ok hx
  | error e s' => exact h.of_error hx

inductive Request
  | one
  | several (n : UInt64)

def Request.size : Request → Nat
  | one => 1
  | several n => n.toNat

namespace Allocator

variable {m m' : Allocator} {n : UInt64} {r : Request} {e : Fault} {l : List State}

def serve : Request → Minting (List State)
  | .one => return [← mint]
  | .several n => mintMany n

/-- A failure is no reason not to make the next request. -/
def after (m : Allocator) (l : List Request) : Allocator := l.foldl (fun m r => leftBy (serve r m)) m

theorem serve_of_lt (h : listCapacity < r.size) : serve r m = .error .capacity m := by
  cases r with
  | one => exact absurd h (by decide)
  | several n => exact congrFun (if_pos h) m

theorem serve_of_le (h : r.size ≤ listCapacity) : serve r = mintEach r.size := by
  cases r with
  | one =>
    unfold serve Request.size mintEach mintEach
    simp
  | several n => exact if_neg (Nat.not_lt.mpr h)

theorem serve_eq_error : serve r m = .error e m' ↔ listCapacity < r.size ∧ e = .capacity ∧ m' = m ∨
    r.size ≤ listCapacity ∧ m.room < r.size ∧ e = .exhausted ∧ m' = m.advance m.room := by
  rcases Nat.lt_or_ge listCapacity r.size with h | h
  · rw [serve_of_lt h]
    simp [h, Nat.not_le.mpr h, eq_comm]
  · rw [serve_of_le h, mintEach_eq_error]
    simp [h, Nat.not_lt.mpr h]

theorem serve_of_exhausted (hm : m.room = 0) :
    leftBy (serve r m) = m ∧ (0 < r.size → ∃ e, serve r m = .error e m) := by
  rcases Nat.lt_or_ge listCapacity r.size with h | h
  · rw [serve_of_lt h]
    exact ⟨rfl, fun _ => ⟨_, rfl⟩⟩
  rw [serve_of_le h]
  rcases Nat.eq_zero_or_pos r.size with hr | hr
  · rw [hr]
    exact ⟨rfl, fun h => absurd h (Nat.lt_irrefl 0)⟩
  · have h : mintEach r.size m = .error .exhausted m := by
      rw [mintEach_of_lt (by omega), hm, advance_zero]
    rw [h]
    exact ⟨rfl, fun _ => ⟨_, rfl⟩⟩

theorem after_of_exhausted (hm : m.room = 0) : ∀ l : List Request, m.after l = m
  | [] => rfl
  | r :: l => by
    have h : m.after (r :: l) = (leftBy (serve r m)).after l := rfl
    rw [h, (serve_of_exhausted hm).1]
    exact after_of_exhausted hm l

theorem mintEach_fails_iff {n : Nat} :
    m.room < n ↔ ∃ i < n, ∃ l m', mintEach i m = .ok l m' ∧ m'.counter.toNat = 4294967295 := by
  have hc := m.counter.toNat_lt
  constructor
  · intro h
    refine ⟨m.room, h, _, _, mintEach_of_le (Nat.le_refl _), ?_⟩
    rw [toNat_advance (Nat.le_refl _)]
    unfold room
    omega
  · intro h
    obtain ⟨i, hi, l, m', h, hm'⟩ := h
    obtain ⟨hle, _, rfl⟩ := mintEach_eq_ok.mp h
    rw [toNat_advance hle] at hm'
    unfold room
    omega

/-- A request fails at once if its list is too long, and else when no state is left and it asks for another. -/
theorem serve_fails_iff : (∃ m', serve r m = .error e m') ↔ listCapacity < r.size ∧ e = .capacity ∨
    r.size ≤ listCapacity ∧ e = .exhausted ∧
      ∃ i < r.size, ∃ l m', mintEach i m = .ok l m' ∧ m'.counter.toNat = 4294967295 := by
  rw [← mintEach_fails_iff]
  simp only [serve_eq_error]
  constructor
  · intro h
    obtain ⟨m', ⟨h, he, _⟩ | ⟨h, hr, he, _⟩⟩ := h
    · exact .inl ⟨h, he⟩
    · exact .inr ⟨h, he, hr⟩
  · intro h
    obtain ⟨h, he⟩ | ⟨h, he, hr⟩ := h
    · exact ⟨_, .inl ⟨h, he, rfl⟩⟩
    · exact ⟨_, .inr ⟨h, hr, he, rfl⟩⟩

/-- The call fails with states left, and the next one gets a state. -/
theorem serve_after_capacity_fault :
    serve (.several 18446744073709551615) ⟨4294967293⟩ = .error .capacity ⟨4294967293⟩ ∧
      serve .one ⟨4294967293⟩ = .ok [⟨4294967293⟩] ⟨4294967294⟩ := ⟨rfl, rfl⟩

end Allocator

/-! ## Ledgers -/

structure Ledger where
  allocator : Allocator
  minted : List State

namespace Ledger

variable {α β : Type} {m : Allocator} {s s' : Ledger} {n : Nat} {r : Request} {l : List State}
variable {x : EStateM Fault Ledger α} {f : α → EStateM Fault Ledger β} {y : Minting α} {g : α → Minting β}

def mint : EStateM Fault Ledger State := fun s =>
  match Allocator.mint s.allocator with
  | .ok q m => .ok q ⟨m, s.minted ++ [q]⟩
  | .error e m => .error e ⟨m, s.minted⟩

def mintEach : Nat → EStateM Fault Ledger (List State)
  | 0 => pure []
  | n + 1 => do
    let q ← mint
    let l ← mintEach n
    return q :: l

def mintMany (n : UInt64) : EStateM Fault Ledger (List State) :=
  if Allocator.listCapacity < n.toNat then throw .capacity else mintEach n.toNat

def serve : Request → EStateM Fault Ledger (List State)
  | .one => return [← mint]
  | .several n => mintMany n

def after (s : Ledger) (l : List Request) : Ledger := l.foldl (fun s r => leftBy (serve r s)) s

theorem serve_of_lt (h : Allocator.listCapacity < r.size) : serve r s = .error .capacity s := by
  cases r with
  | one => exact absurd h (by decide)
  | several n => exact congrFun (if_pos h) s

theorem serve_of_le (h : r.size ≤ Allocator.listCapacity) : serve r = mintEach r.size := by
  cases r with
  | one =>
    unfold serve Request.size mintEach mintEach
    simp
  | several n => exact if_neg (Nat.not_lt.mpr h)

/-! ## Without the record -/

def forget : EStateM.Result Fault Ledger α → EStateM.Result Fault Allocator α
  | .ok a s => .ok a s.allocator
  | .error e s => .error e s.allocator

theorem forget_mint : forget (mint s) = Allocator.mint s.allocator := by
  unfold mint
  cases Allocator.mint s.allocator <;> rfl

theorem forget_bind (hx : forget (x s) = y s.allocator) (hf : ∀ a s, forget (f a s) = g a s.allocator) :
    forget ((x >>= f) s) = (y >>= g) s.allocator := by
  simp only [bind, EStateM.bind]
  rw [← hx]
  cases x s with
  | ok a s' => exact hf a s'
  | error e s' => rfl

theorem forget_mintEach : ∀ {n : Nat} {s : Ledger}, forget (mintEach n s) = Allocator.mintEach n s.allocator
  | 0, _ => rfl
  | _ + 1, _ => forget_bind forget_mint fun _ _ => forget_bind forget_mintEach fun _ _ => rfl

theorem forget_serve : forget (serve r s) = Allocator.serve r s.allocator := by
  rcases Nat.lt_or_ge Allocator.listCapacity r.size with h | h
  · rw [serve_of_lt h, Allocator.serve_of_lt h]
    rfl
  · rw [serve_of_le h, Allocator.serve_of_le h]
    exact forget_mintEach

theorem allocator_leftBy {z : EStateM.Result Fault Ledger α} : (leftBy z).allocator = leftBy (forget z) := by
  cases z <;> rfl

theorem allocator_after : ∀ {l : List Request} {s : Ledger}, (s.after l).allocator = s.allocator.after l
  | [], _ => rfl
  | r :: l, s => by
    have h : (s.after (r :: l)).allocator = ((leftBy (serve r s)).after l).allocator := rfl
    rw [h, allocator_after, allocator_leftBy, forget_serve]
    rfl

/-! ## The record -/

/-- The record starts at the counter of `m` and goes up to the counter as it is now. -/
structure CountsUp (m : Allocator) (s : Ledger) : Prop where
  ordinals : s.minted.map (·.ordinal.toNat) = List.range' m.counter.toNat s.minted.length
  counter : s.allocator.counter.toNat = m.counter.toNat + s.minted.length

theorem countsUp_opened : CountsUp m ⟨m, []⟩ := ⟨rfl, rfl⟩

theorem CountsUp.mint (h : CountsUp m s) : Meets mint s (fun _ => CountsUp m) fun _ => CountsUp m := by
  unfold Meets Ledger.mint
  rcases Nat.eq_zero_or_pos s.allocator.room with hr | hr
  · rw [Allocator.mint_of_exhausted hr]
    exact h
  · have hs : (Allocator.mk (s.allocator.counter + 1)).counter.toNat = s.allocator.counter.toNat + 1 :=
      Allocator.toNat_succ hr
    rw [Allocator.mint_of_room hr]
    constructor
    · simp only [List.map_append, List.map_cons, List.map_nil, List.length_append, List.length_cons,
        List.length_nil, h.ordinals, h.counter, List.range'_concat]
      simp
    · simp only [hs, h.counter, List.length_append, List.length_cons, List.length_nil]
      omega

theorem CountsUp.mintEach : ∀ {n : Nat} {s : Ledger}, CountsUp m s →
    Meets (mintEach n) s (fun _ => CountsUp m) fun _ => CountsUp m
  | 0, _, h => h
  | _ + 1, _, h => h.mint.bind fun _ _ h => h.mintEach.bind fun _ _ h => h

theorem CountsUp.serve (h : CountsUp m s) : Meets (serve r) s (fun _ => CountsUp m) fun _ => CountsUp m := by
  rcases Nat.lt_or_ge Allocator.listCapacity r.size with hr | hr
  · exact meets_of_error (serve_of_lt hr) h
  · rw [serve_of_le hr]
    exact h.mintEach

theorem CountsUp.after : ∀ {l : List Request} {s : Ledger}, CountsUp m s → CountsUp m (s.after l)
  | [], _, h => h
  | _ :: _, _, h => h.serve.leftBy.after

theorem CountsUp.lt_last (h : CountsUp m s) {q : State} (hq : q ∈ s.minted) : q.ordinal.toNat < 4294967295 := by
  have hc := s.allocator.counter.toNat_lt
  have hcounter := h.counter
  have hmem : q.ordinal.toNat ∈ s.minted.map (·.ordinal.toNat) := List.mem_map_of_mem hq
  rw [h.ordinals, List.mem_range'_1] at hmem
  omega

theorem mint_records : Meets mint s (fun q s' => s'.minted = s.minted ++ [q]) fun _ _ => True := by
  unfold Meets mint
  cases Allocator.mint s.allocator with
  | ok q m => rfl
  | error e m => trivial

theorem mintEach_records : ∀ {n : Nat} {s : Ledger},
    Meets (mintEach n) s (fun l s' => s'.minted = s.minted ++ l) fun _ _ => True
  | 0, s => (List.append_nil s.minted).symm
  | n + 1, s => mint_records.bind fun q s₁ h => mintEach_records.bind fun l s₂ hl => by
    change s₂.minted = s.minted ++ q :: l
    rw [hl, h, List.append_assoc]
    rfl

theorem minted_of_serve (h : serve r s = .ok l s') : s'.minted = s.minted ++ l := by
  rcases Nat.lt_or_ge Allocator.listCapacity r.size with hr | hr
  · rw [serve_of_lt hr] at h
    cases h
  · rw [serve_of_le hr] at h
    exact mintEach_records.of_ok h

end Ledger

/-- The record lists the ordinals from the counter on. A request fails if its list is too long, and then it mints
nothing, or else iff it asks for a state while the counter stands at the last ordinal; and there the counter stays. -/
theorem ledger_counts_up (m : Allocator) (l : List Request) :
    let s := (Ledger.mk m []).after l
    (s.allocator = m.after l ∧ (∀ r, Ledger.forget (Ledger.serve r s) = Allocator.serve r (m.after l)) ∧
      ∀ r answer s', Ledger.serve r s = .ok answer s' → s'.minted = s.minted ++ answer) ∧
    s.minted.map (·.ordinal.toNat) = List.range' m.counter.toNat s.minted.length ∧
    (∀ q ∈ s.minted, q.ordinal.toNat < 4294967295) ∧
    (m.after l).counter.toNat = m.counter.toNat + s.minted.length ∧
    (∀ r e, (∃ m', Allocator.serve r (m.after l) = .error e m') ↔
      Allocator.listCapacity < r.size ∧ e = .capacity ∨
      r.size ≤ Allocator.listCapacity ∧ e = .exhausted ∧
        ∃ i < r.size, ∃ l' m', Allocator.mintEach i (m.after l) = .ok l' m' ∧ m'.counter.toNat = 4294967295) ∧
    (∀ r m', Allocator.serve r (m.after l) = .error .capacity m' → m' = m.after l) ∧
    ∀ r m', Allocator.serve r (m.after l) = .error .exhausted m' → ∀ l', m'.after l' = m' ∧
      ∀ r', 0 < r'.size → ∃ e, Allocator.serve r' m' = .error e m' := by
  intro s
  have hs : s.allocator = m.after l := Ledger.allocator_after
  have hcount : Ledger.CountsUp m s := Ledger.countsUp_opened.after
  refine ⟨⟨hs, fun r => ?_, fun r answer s' h => Ledger.minted_of_serve h⟩, hcount.ordinals,
    fun _ => hcount.lt_last, ?_, fun _ _ => Allocator.serve_fails_iff, fun r m' h => ?_, fun r m' h l' => ?_⟩
  · rw [Ledger.forget_serve, hs]
  · rw [← hs]
    exact hcount.counter
  · obtain ⟨_, _, rfl⟩ | ⟨_, _, he, _⟩ := Allocator.serve_eq_error.mp h
    · rfl
    · cases he
  · obtain ⟨_, he, _⟩ | ⟨_, _, _, rfl⟩ := Allocator.serve_eq_error.mp h
    · cases he
    have hroom := Allocator.room_advance_room (m := m.after l)
    exact ⟨Allocator.after_of_exhausted hroom l', fun r' hr' => (Allocator.serve_of_exhausted hroom).2 hr'⟩

/-- The first request asks for too long a list, the third fails after the last state that is left, and so does
the fourth. -/
example : (Ledger.mk ⟨4294967293⟩ []).after [.several 18446744073709551615, .one, .several 5, .one] =
    ⟨⟨4294967295⟩, [⟨4294967293⟩, ⟨4294967294⟩]⟩ := rfl

end Automata
