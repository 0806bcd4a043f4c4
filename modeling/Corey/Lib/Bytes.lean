import Mathlib.Algebra.Order.Ring.Nat

/-!
Memory as a function from addresses to bytes.

`put` is the copy of a number of bytes to an address, `start` the memory that starts at an
address, `word` and `putWord` the 64-bit numbers in it, least significant byte first.
-/

namespace Corey

abbrev Byte := BitVec 8
abbrev Bytes := ℕ → Byte

namespace Bytes

variable {b c src : Bytes} {a i n v k : ℕ}

/-- `memcpy(b + i, src, n)` -/
def put (b : Bytes) (i : ℕ) (src : Bytes) (n : ℕ) : Bytes := fun a =>
  if i ≤ a ∧ a < i + n then src (a - i) else b a

def start (b : Bytes) (i : ℕ) : Bytes := fun a => b (i + a)

@[simp] lemma start_apply : b.start i a = b (i + a) := rfl

lemma put_away (h : a < i ∨ i + n ≤ a) : b.put i src n a = b a := if_neg (by omega)

lemma put_within (h : i ≤ a) (h' : a < i + n) : b.put i src n a = src (a - i) := if_pos ⟨h, h'⟩

/-- A copy into a copy of a piece of memory, written back whole, is a copy into the memory. -/
lemma put_put_start {m : ℕ} (h : k + n ≤ m) :
    b.put i (put (put c 0 (b.start i) m) k src n) m = b.put (i + k) src n := by
  ext1 a
  by_cases ha : i ≤ a ∧ a < i + m
  · rw [put_within ha.1 ha.2]
    by_cases hk : k ≤ a - i ∧ a - i < k + n
    · rw [put_within hk.1 hk.2, put_within (by omega) (by omega), Nat.sub_sub]
    · rw [put_away (by omega), put_within (by omega) (by omega), put_away (by omega), start_apply]
      congr 1
      omega
  · rw [put_away (by omega), put_away (by omega)]

/-- The number in the first `k` bytes at `i`. -/
def little (b : Bytes) : ℕ → ℕ → ℕ
  | 0, _ => 0
  | k + 1, i => (b i).toNat + 256 * little b k (i + 1)

def word (b : Bytes) (i : ℕ) : ℕ := b.little 8 i

def ofNat (v : ℕ) : Bytes := fun k => BitVec.ofNat 8 (v / 256 ^ k)

def putWord (b : Bytes) (i v : ℕ) : Bytes := b.put i (ofNat v) 8

lemma little_congr (h : ∀ j < k, b (i + j) = c (n + j)) : b.little k i = c.little k n := by
  induction k generalizing i n with
  | zero => rfl
  | succ k ih =>
    have h0 : b i = c n := h 0 (by omega)
    have hrest : b.little k (i + 1) = c.little k (n + 1) := ih fun j hj => by
      have := h (j + 1) (by omega)
      rwa [Nat.add_right_comm, Nat.add_right_comm n]
    rw [little, little, h0, hrest]

lemma word_congr (h : ∀ j < 8, b (i + j) = c (n + j)) : b.word i = c.word n := little_congr h

lemma little_ofNat (k : ℕ) : (ofNat v).little k i = v / 256 ^ i % 256 ^ k := by
  induction k generalizing i with
  | zero => simp [little, Nat.mod_one]
  | succ k ih =>
    rw [little, ih, ofNat, BitVec.toNat_ofNat, pow_succ' 256 k, Nat.mod_mul, Nat.div_div_eq_div_mul,
      pow_succ 256 i]

lemma word_ofNat (h : v < 2 ^ 64) : (ofNat v).word 0 = v := by
  rw [word, little_ofNat, pow_zero, Nat.div_one, Nat.mod_eq_of_lt (by simpa using h)]

@[simp] lemma word_putWord (h : v < 2 ^ 64) : (b.putWord i v).word i = v := by
  rw [← word_ofNat h]
  refine word_congr fun j hj => ?_
  rw [putWord, put_within (by omega) (by omega), Nat.zero_add, Nat.add_sub_cancel_left,
    word_ofNat h]

lemma word_putWord_of_ne {j : ℕ} (h : j + 8 ≤ i ∨ i + 8 ≤ j) :
    (b.putWord i v).word j = b.word j :=
  word_congr fun _ _ => put_away (by omega)

lemma word_put_within (h : k + 8 ≤ n) : (b.put i src n).word (i + k) = src.word k :=
  word_congr fun j _ => by
    rw [put_within (by omega) (by omega), Nat.add_assoc, Nat.add_sub_cancel_left]

lemma word_start : (b.start i).word n = b.word (i + n) :=
  word_congr fun j _ => by rw [start_apply, Nat.add_assoc]

end Bytes

end Corey
