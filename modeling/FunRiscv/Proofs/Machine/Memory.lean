import Mathlib

/-!
# Memory

Memory is a map from addresses of 32 bits to bytes.  Addresses wrap around.

* `Memory.read`, `Memory.write`: a number in some bytes, the lowest byte first.
* `span`: the addresses of some bytes.
* `Memory.word_write_word`: a word that was written is read back.
* `Memory.read_congr`, `Memory.write_congr`: only the bytes of an access matter.
-/

namespace FunRiscv.Machine

/-- A word of the machine. -/
abbrev Val := BitVec 32

/-- A byte for each address. -/
abbrev Memory := BitVec 32 → BitVec 8

/-- The addresses of a number of bytes, from an address on. -/
def span (a : Val) (n : Nat) : Set Val := {x | (x - a).toNat < n}

theorem mem_span {x a : Val} {n : Nat} : x ∈ span a n ↔ (x - a).toNat < n := Iff.rfl

/-- A byte of a span lies in another one that holds it. -/
theorem mem_span_of_mem_span {x a b : Val} {n k : Nat} (h : x ∈ span b k)
    (hfit : (b - a).toNat + k ≤ n) : x ∈ span a n := by
  rw [mem_span] at h ⊢
  have hsum : x - a = (x - b) + (b - a) := by ring
  rw [hsum, BitVec.toNat_add]
  exact (Nat.mod_le _ _).trans_lt (by omega)

/-- Spans within one span meet only where their distances do. -/
theorem not_mem_span_of_mem_span {x a b c : Val} {k l : Nat} (h : x ∈ span b k)
    (hb : (b - a).toNat + k ≤ 2 ^ 32) (hc : (c - a).toNat + l ≤ 2 ^ 32)
    (hapart : (b - a).toNat + k ≤ (c - a).toNat ∨ (c - a).toNat + l ≤ (b - a).toNat) :
    x ∉ span c l := by
  rw [mem_span] at h ⊢
  intro hx
  have hxb : x - a = (x - b) + (b - a) := by ring
  have hxc : x - a = (x - c) + (c - a) := by ring
  have h1 : (x - a).toNat = (x - b).toNat + (b - a).toNat := by
    rw [hxb, BitVec.toNat_add, Nat.mod_eq_of_lt (by omega)]
  have h2 : (x - a).toNat = (x - c).toNat + (c - a).toNat := by
    rw [hxc, BitVec.toNat_add, Nat.mod_eq_of_lt (by omega)]
  omega

namespace Memory

/-- The number that some bytes hold. -/
def read (m : Memory) (a : Val) : (n : Nat) → Nat
  | 0 => 0
  | n + 1 => (m a).toNat + 256 * m.read (a + 1) n

/-- The word at an address. -/
def word (m : Memory) (a : Val) : Val := BitVec.ofNat 32 (m.read a 4)

/-- Memory in which some bytes hold the low bytes of a word. -/
def write (m : Memory) (a : Val) (n : Nat) (v : Val) : Memory := fun x =>
  if (x - a).toNat < n then BitVec.ofNat 8 (v.toNat / 256 ^ (x - a).toNat) else m x

theorem write_of_not_mem {m : Memory} {a x : Val} {n : Nat} (v : Val) (h : x ∉ span a n) :
    m.write a n v x = m x := if_neg h

theorem read_congr {m m' : Memory} {a : Val} {n : Nat} (hn : n ≤ 2 ^ 32)
    (h : ∀ x ∈ span a n, m x = m' x) : m.read a n = m'.read a n := by
  induction n generalizing a with
  | zero => rfl
  | succ n ih =>
    have hfirst : m a = m' a := h a (by simp [mem_span])
    have hrest : m.read (a + 1) n = m'.read (a + 1) n := by
      refine ih (by omega) fun x hx => h x (mem_span_of_mem_span hx ?_)
      have : (a + 1 - a).toNat = 1 := by simp
      omega
    rw [read, read, hfirst, hrest]

theorem word_congr {m m' : Memory} {a : Val} (h : ∀ x ∈ span a 4, m x = m' x) :
    m.word a = m'.word a := by
  rw [word, word, read_congr (by norm_num) h]

theorem write_congr {m m' : Memory} {a x : Val} (n : Nat) (v : Val) (h : m x = m' x) :
    m.write a n v x = m'.write a n v x := by
  unfold write
  split
  · rfl
  · exact h

/-- A word that was written is read back. -/
@[simp]
theorem word_write_word (m : Memory) (a v : Val) : (m.write a 4 v).word a = v := by
  have hbyte : ∀ k : Nat, k < 4 →
    (m.write a 4 v (a + BitVec.ofNat 32 k)).toNat = v.toNat / 256 ^ k % 256 := by
    intro k hk
    have hdist : (a + BitVec.ofNat 32 k - a).toNat = k := by
      rw [show a + BitVec.ofNat 32 k - a = BitVec.ofNat 32 k by ring, BitVec.toNat_ofNat]
      omega
    simp only [write, hdist, hk, if_true, BitVec.toNat_ofNat]
  have h0 := hbyte 0 (by omega)
  have h1 := hbyte 1 (by omega)
  have h2 := hbyte 2 (by omega)
  have h3 := hbyte 3 (by omega)
  have hread : (m.write a 4 v).read a 4 = v.toNat := by
    have e1 : a + 1 + 1 = a + BitVec.ofNat 32 2 := by
      rw [add_assoc]
      rfl
    have e2 : a + 1 + 1 + 1 = a + BitVec.ofNat 32 3 := by
      rw [add_assoc, add_assoc]
      rfl
    rw [show a + BitVec.ofNat 32 0 = a by simp] at h0
    simp only [read]
    rw [e2, e1, show a + 1 = a + BitVec.ofNat 32 1 from rfl, h0, h1, h2, h3]
    have := v.isLt
    omega
  rw [word, hread, BitVec.ofNat_toNat, BitVec.setWidth_eq]

/-- A write elsewhere leaves a word. -/
theorem word_write_of_disjoint {m : Memory} {a b : Val} {n : Nat} (v : Val)
    (h : ∀ x ∈ span b 4, x ∉ span a n) : (m.write a n v).word b = m.word b :=
  word_congr fun x hx => write_of_not_mem v (h x hx)

end Memory

end FunRiscv.Machine
