import Automata.Allocator
import Mathlib.Data.List.Nodup

/-! # Blocks of minted states -/

namespace Automata

theorem Minting.ofExcept_eq_ok {α : Type} {x : Except Error α} {a : α} {m m' : Allocator} :
    Minting.ofExcept x m = .ok a m' ↔ x = .ok a ∧ m' = m := by
  cases x with
  | ok b =>
    rw [ofExcept_ok]
    constructor
    · intro h
      cases h
      exact ⟨rfl, rfl⟩
    · intro h
      obtain ⟨h, rfl⟩ := h
      cases h
      rfl
  | error e =>
    rw [ofExcept_error]
    constructor
    · intro h
      cases h
    · intro h
      cases h.1

theorem Minting.bind_eq_error {α β : Type} {x : Minting α} {f : α → Minting β} {m m'' : Allocator} {e : Fault} :
    (x >>= f) m = .error e m'' ↔ x m = .error e m'' ∨ ∃ a m', x m = .ok a m' ∧ f a m' = .error e m'' := by
  cases h : x m with
  | ok a m' => simp [bind_of_ok h, and_assoc]
  | error e m' => simp [bind_of_error h]

/-! ## Outcomes of an action -/

section
variable {ε σ α β : Type} {x : EStateM ε σ α} {f : α → EStateM ε σ β} {s s' : σ} {a : α} {e : ε}
variable {P P' : α → σ → Prop} {Q : β → σ → Prop} {E : ε → σ → Prop}

/-- From `s` on the action succeeds with `P` or fails with `E`. -/
def Meets (x : EStateM ε σ α) (s : σ) (P : α → σ → Prop) (E : ε → σ → Prop) : Prop :=
  match x s with
  | .ok a s' => P a s'
  | .error e s' => E e s'

theorem meets_of_ok (h : x s = .ok a s') (ha : P a s') : Meets x s P E := by
  unfold Meets
  rwa [h]

theorem meets_of_error (h : x s = .error e s') (he : E e s') : Meets x s P E := by
  unfold Meets
  rwa [h]

namespace Meets

theorem of_ok (h : Meets x s P E) (hx : x s = .ok a s') : P a s' := by
  unfold Meets at h
  rwa [hx] at h

theorem of_error (h : Meets x s P E) (hx : x s = .error e s') : E e s' := by
  unfold Meets at h
  rwa [hx] at h

theorem imp (h : Meets x s P E) (hP : ∀ a s', P a s' → P' a s') : Meets x s P' E := by
  unfold Meets
  cases hx : x s with
  | ok a s' => exact hP a s' (h.of_ok hx)
  | error e s' => exact h.of_error hx

theorem bind (h : Meets x s P E) (hf : ∀ a s', P a s' → Meets (f a) s' Q E) : Meets (x >>= f) s Q E := by
  unfold Meets
  simp only [Bind.bind, EStateM.bind]
  cases hx : x s with
  | ok a s' => exact hf a s' (h.of_ok hx)
  | error e s' => exact h.of_error hx

end Meets

end

namespace Minting

variable {α : Type} {x : Minting α} {m m' : Allocator} {Q : α → Allocator → Prop}

/-- From `m` on the action succeeds with `Q`, unless the allocator runs out of states. -/
abbrev Safe (x : Minting α) (m : Allocator) (Q : α → Allocator → Prop) : Prop :=
  Meets x m Q fun e m' => e = .exhausted ∧ m'.room = 0

theorem safe_of_exhausted (h : x m = .error .exhausted m') (hm : m'.room = 0) : Safe x m Q := meets_of_error h ⟨rfl, hm⟩

theorem Safe.exists_ok (hx : Safe x m Q) (hm : ∀ m', x m ≠ .error .exhausted m') :
    ∃ a m', x m = .ok a m' ∧ Q a m' := by
  cases h : x m with
  | ok a m' => exact ⟨a, m', rfl, hx.of_ok h⟩
  | error e m' =>
    obtain ⟨rfl, _⟩ := hx.of_error h
    exact absurd h (hm m')

end Minting

/-! ## Blocks -/

namespace Allocator

variable {m m' : Allocator} {n i : Nat} {l : List State} {q : State} {e : Fault}

def advance (m : Allocator) (n : Nat) : Allocator := ⟨m.counter + UInt32.ofNat n⟩

def block (m : Allocator) (n : Nat) : List State :=
  (List.range n).map fun i => ⟨m.counter + UInt32.ofNat i⟩

@[simp] theorem length_block : (m.block n).length = n := by simp [block]

theorem advance_zero : m.advance 0 = m := by simp [advance]

theorem advance_succ : m.advance (n + 1) = (mk (m.counter + 1)).advance n := by
  unfold advance
  rw [UInt32.ofNat_add, UInt32.add_comm (UInt32.ofNat n), ← UInt32.add_assoc]
  rfl

theorem block_succ : m.block (n + 1) = ⟨m.counter⟩ :: (mk (m.counter + 1)).block n := by
  unfold block
  rw [List.range_succ_eq_map, List.map_cons, List.map_map]
  congr 1
  · simp
  · apply List.map_congr_left
    intro i _
    have h : m.advance (i + 1) = (mk (m.counter + 1)).advance i := advance_succ
    exact congrArg (fun m => State.mk m.counter) h

theorem advance_concat : m.advance (n + 1) = ⟨(m.advance n).counter + 1⟩ := by
  unfold advance
  rw [UInt32.ofNat_add, ← UInt32.add_assoc]
  rfl

theorem block_concat : m.block (n + 1) = m.block n ++ [⟨(m.advance n).counter⟩] := by
  unfold block advance
  rw [List.range_succ, List.map_append]
  rfl

theorem toNat_advance (h : n ≤ m.room) : (m.advance n).counter.toNat = m.counter.toNat + n := by
  have hc := m.counter.toNat_lt
  unfold room at h
  unfold advance
  rw [UInt32.toNat_add, UInt32.toNat_ofNat_of_lt' (by simp [UInt32.size]; omega), Nat.mod_eq_of_lt (by omega)]

theorem room_advance (h : n ≤ m.room) : (m.advance n).room = m.room - n := by
  have hc : (m.advance n).counter.toNat = m.counter.toNat + n := toNat_advance h
  unfold room
  omega

theorem room_advance_room : (m.advance m.room).room = 0 := by
  rw [room_advance (Nat.le_refl _), Nat.sub_self]

theorem toNat_succ (h : 0 < m.room) : (mk (m.counter + 1)).counter.toNat = m.counter.toNat + 1 := by
  rw [← toNat_advance h, advance_succ, advance_zero]

theorem counter_lt_succ (h : 0 < m.room) : m.counter.toNat < (mk (m.counter + 1)).counter.toNat := by
  rw [toNat_succ h]
  exact Nat.lt_succ_self _

theorem ascending_block (h : n ≤ m.room) : (m.block n).Pairwise fun p q => p.ordinal < q.ordinal := by
  rw [block, List.pairwise_map]
  refine List.Pairwise.imp_of_mem ?_ List.pairwise_lt_range
  intro i j hi hj hij
  have hi : i ≤ m.room := by have := List.mem_range.mp hi; omega
  have hj : j ≤ m.room := by have := List.mem_range.mp hj; omega
  have hlt : (m.advance i).counter.toNat < (m.advance j).counter.toNat := by
    rw [toNat_advance hi, toNat_advance hj]
    omega
  exact UInt32.lt_iff_toNat_lt.mpr hlt

theorem nodup_block (h : n ≤ m.room) : (m.block n).Nodup := by
  refine (ascending_block h).imp fun hlt e => ?_
  rw [e] at hlt
  exact UInt32.lt_irrefl _ hlt

/-- Whether the state is handed out between two readings of the counter. -/
def Mints (m m' : Allocator) (q : State) : Prop :=
  m.counter.toNat ≤ q.ordinal.toNat ∧ q.ordinal.toNat < m'.counter.toNat

theorem Mints.mono {n n' : Allocator} (h : m.Mints m' q) (hm : n.counter.toNat ≤ m.counter.toNat)
    (hm' : m'.counter.toNat ≤ n'.counter.toNat) : n.Mints n' q :=
  ⟨Nat.le_trans hm h.1, Nat.lt_of_lt_of_le h.2 hm'⟩

theorem mints_of_mem_block (hn : n ≤ m.room) (hq : q ∈ m.block n) : Mints m (m.advance n) q := by
  obtain ⟨i, hi, rfl⟩ := List.mem_map.mp hq
  have hi : i < n := List.mem_range.mp hi
  have hc : (m.advance i).counter.toNat = m.counter.toNat + i := toNat_advance (by omega)
  have hle : m.counter.toNat ≤ (m.advance i).counter.toNat := by omega
  have hlt : (m.advance i).counter.toNat < (m.advance n).counter.toNat := by
    rw [hc, toNat_advance hn]
    omega
  exact ⟨hle, hlt⟩

theorem mem_block_iff (hn : n ≤ m.room) : q ∈ m.block n ↔ Mints m (m.advance n) q := by
  refine ⟨mints_of_mem_block hn, fun h => ?_⟩
  obtain ⟨hle, hlt⟩ := h
  rw [toNat_advance hn] at hlt
  refine List.mem_map.mpr ⟨q.ordinal.toNat - m.counter.toNat, List.mem_range.mpr (by omega), ?_⟩
  have hc : (m.advance (q.ordinal.toNat - m.counter.toNat)).counter.toNat = q.ordinal.toNat := by
    rw [toNat_advance (by omega)]
    omega
  exact State.ordinal_inj.mp (UInt32.toNat_inj.mp hc)

theorem mint_eq_ok : mint m = .ok q m' ↔ 0 < m.room ∧ q = ⟨m.counter⟩ ∧ m' = ⟨m.counter + 1⟩ := by
  rcases Nat.eq_zero_or_pos m.room with hr | hr
  · simp [mint_of_exhausted hr, hr]
  · simp [mint_of_room hr, hr, eq_comm]

theorem mint_eq_error : mint m = .error e m' ↔ m.room = 0 ∧ e = .exhausted ∧ m' = m := by
  rcases Nat.eq_zero_or_pos m.room with hr | hr
  · simp [mint_of_exhausted hr, hr, eq_comm]
  · simp [mint_of_room hr, Nat.ne_of_gt hr]

theorem mintEach_of_le : ∀ {n : Nat} {m : Allocator}, n ≤ m.room → mintEach n m = .ok (m.block n) (m.advance n)
  | 0, m, _ => by rw [advance_zero]; rfl
  | n + 1, m, h => by
    have hr : 0 < m.room := by omega
    have hn : n ≤ (mk (m.counter + 1)).room := by have := room_succ hr; omega
    rw [mintEach, Minting.bind_of_ok (mint_of_room hr), Minting.bind_of_ok (mintEach_of_le hn), block_succ,
      advance_succ]
    rfl

theorem mintEach_of_lt : ∀ {n : Nat} {m : Allocator}, m.room < n →
    mintEach n m = .error .exhausted (m.advance m.room)
  | 0, _, h => absurd h (Nat.not_lt_zero _)
  | n + 1, m, h => by
    rcases Nat.eq_zero_or_pos m.room with hr | hr
    · rw [mintEach, Minting.bind_of_error (mint_of_exhausted hr), hr, advance_zero]
    · have hs := room_succ hr
      have hn : (mk (m.counter + 1)).room < n := by omega
      rw [mintEach, Minting.bind_of_ok (mint_of_room hr), Minting.bind_of_error (mintEach_of_lt hn), ← hs,
        advance_succ]

theorem mintEach_eq_ok : mintEach n m = .ok l m' ↔ n ≤ m.room ∧ l = m.block n ∧ m' = m.advance n := by
  rcases Nat.lt_or_ge m.room n with h | h
  · rw [mintEach_of_lt h]
    constructor
    · intro he; cases he
    · intro he; omega
  · rw [mintEach_of_le h]
    simp [h, eq_comm]

theorem mintEach_eq_error : mintEach n m = .error e m' ↔ m.room < n ∧ e = .exhausted ∧ m' = m.advance m.room := by
  rcases Nat.lt_or_ge m.room n with h | h
  · rw [mintEach_of_lt h]
    simp [h, eq_comm]
  · rw [mintEach_of_le h]
    constructor
    · intro he; cases he
    · intro he; omega

end Allocator

end Automata
