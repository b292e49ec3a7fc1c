import LockDb.Manager
import LockDb.Shared.Rotation
import Mathlib.Data.Nat.Log
import Mathlib.Tactic.IntervalCases

/-!
# Construction of the table and spread of the ids

The table as the constructors build it, with a slice of shards and a number of
bits that are only meant to fit together. The shift of the hash stays in range
and the index inside the slice when the request could be rounded up at all.
-/

namespace LockDb

set_option autoImplicit false

open Shared

/-- The least power of two that is at least `n`; 2^64 wraps to 0. -/
def nextPowerOfTwo (n : UInt64) : UInt64 := UInt64.ofNat (2 ^ Nat.clog 2 n.toNat)

/-- The zeros below the lowest one bit, among the first `fuel` bits. -/
def zerosBelow : Nat → Nat → Nat
  | 0, _ => 0
  | fuel + 1, n => if n % 2 = 1 then 0 else zerosBelow fuel (n / 2) + 1

def trailingZeros (n : UInt64) : Nat := zerosBelow 64 n.toNat

def saturatingMul (a b : UInt64) : UInt64 := UInt64.ofNat (min (a.toNat * b.toNat) (2 ^ 64 - 1))

def clamp (n low high : UInt64) : UInt64 := if n < low then low else if n > high then high else n

/-- The table with the fields it is stored in. -/
structure RawLockManager where
  shards : List ShardInner
  bits : Nat
  waits : WaitMap

namespace RawLockManager

def withShards (shards : UInt64) : RawLockManager :=
  let n := nextPowerOfTwo (max shards 1)
  let bits := trailingZeros n
  ⟨List.replicate n.toNat .new, bits, ∅⟩

/-- Four shards for each thread the machine runs in parallel. -/
def new (parallelism : UInt64) : RawLockManager :=
  let target := clamp (nextPowerOfTwo (saturatingMul parallelism 4)) 16 1024
  withShards target

/-- The method `shards`. -/
def shardCount (self : RawLockManager) : Nat := self.shards.length

def shardIndex (self : RawLockManager) (res : ResourceId) : Nat :=
  if self.bits = 0 then 0
  else
    let hash := res.id * FIB_HASH
    hash.toNat >>> (64 - self.bits)

/-- What is promised of a table for which `shards` shards were requested. -/
structure WellBuilt (table : RawLockManager) (shards : UInt64) : Prop where
  powerOfTwo : table.shardCount = 2 ^ table.bits
  enough : max shards.toNat 1 ≤ table.shardCount
  shift : table.bits ≠ 0 → ∃ amount < 64, amount + table.bits = 64
  routed : ∀ res, table.shardIndex res < table.shardCount

end RawLockManager

namespace LockManager
variable {bits : Nat} (self : LockManager bits)

/-- The fields a table with `2 ^ bits` shards is stored in. -/
def raw : RawLockManager := ⟨List.ofFn self.shards, bits, self.waits⟩

theorem raw_shardCount : self.raw.shardCount = 2 ^ bits := by
  simp [raw, RawLockManager.shardCount]

theorem raw_shardIndex (res : ResourceId) :
    self.raw.shardIndex res = (shardIndex bits res).val := by
  have hbits : self.raw.bits = bits := rfl
  rw [RawLockManager.shardIndex, hbits, shardIndex]
  split <;> rfl

theorem raw_wellBuilt {shards : UInt64} (hbits : bits < 64) (h : max shards.toNat 1 ≤ 2 ^ bits) :
    self.raw.WellBuilt shards where
  powerOfTwo := self.raw_shardCount
  enough := by
    rw [raw_shardCount]
    exact h
  shift hne := by
    have hpos : 0 < bits := Nat.pos_of_ne_zero hne
    exact ⟨64 - bits, by omega, Nat.sub_add_cancel hbits.le⟩
  routed res := by
    rw [raw_shardCount, raw_shardIndex]
    exact (shardIndex bits res).isLt

end LockManager

theorem zerosBelow_two_pow {fuel k : Nat} (h : k < fuel) : zerosBelow fuel (2 ^ k) = k := by
  induction fuel generalizing k with
  | zero => omega
  | succ fuel ih =>
    cases k with
    | zero => rfl
    | succ k =>
      have hhalf : 2 ^ (k + 1) / 2 = 2 ^ k := by rw [Nat.pow_succ, Nat.mul_div_cancel _ two_pos]
      have heven : ¬ 2 ^ (k + 1) % 2 = 1 := by omega
      rw [zerosBelow, if_neg heven, hhalf, ih (by omega)]

theorem nextPowerOfTwo_toNat {n : UInt64} (h : n.toNat ≤ 2 ^ 63) :
    (nextPowerOfTwo n).toNat = 2 ^ Nat.clog 2 n.toNat := by
  have hle : Nat.clog 2 n.toNat ≤ 63 := Nat.clog_le_of_le_pow h
  have hlt : 2 ^ Nat.clog 2 n.toNat < 2 ^ 64 := Nat.pow_lt_pow_right one_lt_two (by omega)
  rw [nextPowerOfTwo, UInt64.toNat_ofNat', Nat.mod_eq_of_lt hlt]

theorem nextPowerOfTwo_wraps {n : UInt64} (h : ¬ n.toNat ≤ 2 ^ 63) :
    (nextPowerOfTwo n).toNat = 0 := by
  have hlow : 63 < Nat.clog 2 n.toNat := 
    (Nat.lt_clog_iff_pow_lt one_lt_two).mpr (by omega)
  have hhigh : Nat.clog 2 n.toNat ≤ 64 := Nat.clog_le_of_le_pow n.toNat_lt.le
  have heq : Nat.clog 2 n.toNat = 64 := by omega
  rw [nextPowerOfTwo, heq]
  rfl

theorem max_one_toNat (n : UInt64) : (max n 1).toNat = max n.toNat 1 := by
  have hdef : max n 1 = if n ≤ 1 then 1 else n := rfl
  rw [hdef]
  split
  · next h =>
    have hle : n.toNat ≤ 1 := UInt64.le_iff_toNat_le.mp h
    rw [max_eq_right hle]
    rfl
  · next h =>
    have hlt : 1 < n.toNat := UInt64.lt_iff_toNat_lt.mp (UInt64.not_le.mp h)
    rw [max_eq_left hlt.le]

namespace RawLockManager

theorem clog_lt {shards : UInt64} (h : shards.toNat ≤ 2 ^ 63) :
    Nat.clog 2 (max shards.toNat 1) < 64 :=
  Nat.lt_succ_of_le (Nat.clog_le_of_le_pow (max_le h Nat.one_le_two_pow))

/-- A request that can be rounded up gives the empty table with that many shards. -/
theorem withShards_eq {shards : UInt64} (h : shards.toNat ≤ 2 ^ 63) :
    withShards shards = (LockManager.withShards (Nat.clog 2 (max shards.toNat 1))).raw := by
  have hmax := max_one_toNat shards
  have hn : (nextPowerOfTwo (max shards 1)).toNat = 2 ^ Nat.clog 2 (max shards.toNat 1) := by
    rw [nextPowerOfTwo_toNat, hmax]
    rw [hmax]
    exact max_le h Nat.one_le_two_pow
  simp only [withShards, trailingZeros, hn, zerosBelow_two_pow (clog_lt h), LockManager.raw,
    LockManager.withShards, List.ofFn_const]

theorem withShards_wraps {shards : UInt64} (h : ¬ shards.toNat ≤ 2 ^ 63) :
    (withShards shards).shardCount = 0 := by
  have hmax := max_one_toNat shards
  have hle : ¬ (max shards 1).toNat ≤ 2 ^ 63 := by
    rw [hmax]
    omega
  simp [withShards, shardCount, nextPowerOfTwo_wraps hle]

theorem withShards_wellBuilt {shards : UInt64} (h : shards.toNat ≤ 2 ^ 63) :
    (withShards shards).WellBuilt shards := by
  rw [withShards_eq h]
  exact LockManager.raw_wellBuilt _ (clog_lt h) (Nat.le_pow_clog one_lt_two _)

theorem clamp_two_pow (n : UInt64) :
    ∃ b, 4 ≤ b ∧ b ≤ 10 ∧ (clamp (nextPowerOfTwo n) 16 1024).toNat = 2 ^ b := by
  unfold clamp
  split
  · exact ⟨4, by omega, by omega, rfl⟩
  · next hlow =>
    split
    · exact ⟨10, by omega, by omega, rfl⟩
    · next hhigh =>
      have hle : 2 ^ 4 ≤ (nextPowerOfTwo n).toNat :=
        UInt64.le_iff_toNat_le.mp (UInt64.not_lt.mp hlow)
      have hge : (nextPowerOfTwo n).toNat ≤ 2 ^ 10 :=
        UInt64.le_iff_toNat_le.mp (UInt64.not_lt.mp hhigh)
      by_cases hn : n.toNat ≤ 2 ^ 63
      · rw [nextPowerOfTwo_toNat hn] at hle hge ⊢
        exact ⟨_, (Nat.pow_le_pow_iff_right one_lt_two).mp hle,
          (Nat.pow_le_pow_iff_right one_lt_two).mp hge, rfl⟩
      · rw [nextPowerOfTwo_wraps hn] at hle
        omega

/-- The default table has between 16 and 1024 shards, however many threads there are. -/
theorem new_eq (parallelism : UInt64) :
    ∃ b, 4 ≤ b ∧ b ≤ 10 ∧ new parallelism = (LockManager.withShards b).raw := by
  obtain ⟨b, hlow, hhigh, htarget⟩ := clamp_two_pow (saturatingMul parallelism 4)
  have hpos : 1 ≤ 2 ^ b := Nat.one_le_two_pow
  have hlog : Nat.clog 2 (max (2 ^ b) 1) = b := by
    rw [max_eq_left hpos, Nat.clog_pow 2 b one_lt_two]
  refine ⟨b, hlow, hhigh, ?_⟩
  rw [new, withShards_eq, htarget, hlog]
  rw [htarget]
  exact Nat.pow_le_pow_right two_pos (by omega)

end RawLockManager

/-- One more than 2^63 shards cannot be rounded up; the table has none and a shift of no bits. -/
theorem overflowing_count_gives_no_shards :
    ¬ ∀ shards, (RawLockManager.withShards shards).WellBuilt shards := by
  intro hbuilt
  have hcount := (hbuilt 9223372036854775809).powerOfTwo
  rw [RawLockManager.withShards_wraps (by decide)] at hcount
  exact absurd hcount.symm (by simp)

/-- `with_shards` keeps what it promises exactly when the request can be rounded up to a
power of two below 2^64. -/
theorem withShards_wellBuilt_iff (shards : UInt64) :
    (RawLockManager.withShards shards).WellBuilt shards ↔ shards.toNat ≤ 2 ^ 63 := by
  constructor
  · intro hbuilt
    by_contra hlarge
    have hcount := hbuilt.powerOfTwo
    rw [RawLockManager.withShards_wraps hlarge] at hcount
    exact absurd hcount.symm (by simp)
  · exact RawLockManager.withShards_wellBuilt

section Spread
variable {b : Nat}

/-- Two multiples of the hash constant are close enough to 2^64 for each number of shards. -/
theorem fibHash_steps (hlow : 4 ≤ b) (hhigh : b ≤ 10) : ∃ forth back,
    Steps (↑(2 ^ b : Nat) * 2 ^ (64 - b)) FIB_HASH.toNat (2 ^ (64 - b)) (2 * 2 ^ b) forth back := by
  interval_cases b
  · exact ⟨13, 8, by constructor <;> decide +kernel⟩
  · exact ⟨34, 21, by constructor <;> decide +kernel⟩
  · exact ⟨34, 55, by constructor <;> decide +kernel⟩
  · exact ⟨89, 144, by constructor <;> decide +kernel⟩
  · exact ⟨233, 144, by constructor <;> decide +kernel⟩
  · exact ⟨233, 377, by constructor <;> decide +kernel⟩
  · exact ⟨610, 987, by constructor <;> decide +kernel⟩

theorem hash_toNat (s : UInt64) (k : Nat) : ((s + UInt64.ofNat k) * FIB_HASH).toNat =
    (s.toNat * FIB_HASH.toNat + k * FIB_HASH.toNat) % 2 ^ 64 := by
  rw [UInt64.toNat_mul, UInt64.toNat_add, UInt64.toNat_ofNat', Nat.add_mod_mod, Nat.mod_mul_mod,
    Nat.add_mul]

/-- A shard index is the arc of the circle of all hashes that the id's hash lies in. -/
theorem shardIndex_arc (hpos : b ≠ 0) (hle : b ≤ 64) (s : UInt64) (k : Nat) :
    ((shardIndex b ⟨s + UInt64.ofNat k⟩).val : ℤ) =
      (s.toNat * FIB_HASH.toNat + k * FIB_HASH.toNat) % (↑(2 ^ b : Nat) * 2 ^ (64 - b)) /
        2 ^ (64 - b) := by
  have hsize : ((2 ^ b : Nat) : ℤ) * 2 ^ (64 - b) = 2 ^ 64 := by
    rw [Nat.cast_pow, Nat.cast_ofNat, ← pow_add, Nat.add_sub_cancel' hle]
  rw [hsize, shardIndex, dif_neg hpos]
  simp only [Nat.shiftRight_eq_div_pow, hash_toNat]
  push_cast
  rfl

theorem sequential_ids_reach (hlow : 4 ≤ b) (hhigh : b ≤ 10) (s : UInt64) (i : Fin (2 ^ b)) :
    ∃ k < 2 * 2 ^ b, shardIndex b ⟨s + UInt64.ofNat k⟩ = i := by
  obtain ⟨forth, back, hsteps⟩ := fibHash_steps hlow hhigh
  have hwidth : (0 : ℤ) < 2 ^ (64 - b) := pow_pos two_pos _
  have hcount : 0 < 2 * 2 ^ b := Nat.mul_pos two_pos (Nat.two_pow_pos b)
  obtain ⟨k, hk, harc⟩ :=
    hsteps.reach_arc hwidth hcount i.isLt (s.toNat * FIB_HASH.toNat)
  refine ⟨k, hk, Fin.ext ?_⟩
  rw [← shardIndex_arc (by omega) (by omega) s k] at harc
  exact_mod_cast harc

end Spread

/-- With any number of shards the default table can have, twice as many consecutive ids as
there are shards reach every shard, from any id on and across the wrap at 2^64. -/
theorem sequential_ids_reach_every_shard (s : UInt64) :
    (∀ b, 4 ≤ b → b ≤ 10 → ∀ i : Fin (2 ^ b),
      ∃ k < 2 * 2 ^ b, shardIndex b ⟨s + UInt64.ofNat k⟩ = i) ∧
    ∀ parallelism, let self := RawLockManager.new parallelism
      ∀ i < self.shardCount, ∃ k < 2 * self.shardCount,
        self.shardIndex ⟨s + UInt64.ofNat k⟩ = i := by
  constructor
  · intro b hlow hhigh i
    exact sequential_ids_reach hlow hhigh s i
  · intro parallelism self
    obtain ⟨b, hlow, hhigh, hnew⟩ := RawLockManager.new_eq parallelism
    have hself : self = (LockManager.withShards b).raw := hnew
    intro i hi
    rw [hself, LockManager.raw_shardCount] at hi ⊢
    obtain ⟨k, hk, hreach⟩ := sequential_ids_reach hlow hhigh s ⟨i, hi⟩
    refine ⟨k, hk, ?_⟩
    rw [LockManager.raw_shardIndex, hreach]

end LockDb
