import Mathlib.Algebra.Order.Ring.Nat
import Mathlib.Data.List.Basic

/-!
# Input that is taken in blocks

A function `f` takes a state and a block of `B` elements. `feed f B k` takes blocks from the front of
the input as long as more than `B` elements are there for `k = 1`, or at least `B` for `k = 0`, and
leaves the others. This is what a buffer of one block does to input that comes in pieces.

* `feed_append`: it does not matter in which pieces the input comes.
* `Buffered`: what a state and a buffer hold after some input. A piece that does not fill the buffer is
  copied to it (`Buffered.keep`), one that does completes a block (`Buffered.fill`), and what follows
  the blocks goes to the begin of the buffer (`Buffered.of_feed`).
-/

namespace Hashish.Lib

variable {S β : Type} {f : S → List β → S} {B k n : Nat} {s : S} {m m' : List β}

/-- Take `n` blocks. -/
def feedN (f : S → List β → S) (B : Nat) : Nat → S → List β → S × List β
  | 0, s, m => (s, m)
  | n + 1, s, m => feedN f B n (f s (m.take B)) (m.drop B)

/-- Take blocks while `B + k` elements are there. -/
def feed (f : S → List β → S) (B k : Nat) (s : S) (m : List β) : S × List β :=
  feedN f B ((m.length - k) / B) s m

theorem feedN_add {n' : Nat} :
    feedN f B (n + n') s m = feedN f B n' (feedN f B n s m).1 (feedN f B n s m).2 := by
  induction n generalizing s m with
  | zero => rw [Nat.zero_add, feedN]
  | succ n ih => rw [Nat.succ_add, feedN, ih, feedN]

/-- Blocks that are there do not depend on what comes after them. -/
theorem feedN_append (h : n * B ≤ m.length) :
    feedN f B n s (m ++ m') = ((feedN f B n s m).1, (feedN f B n s m).2 ++ m') := by
  induction n generalizing s m with
  | zero => rfl
  | succ n ih =>
    rw [Nat.succ_mul] at h
    rw [feedN, feedN, List.take_append_of_le_length (by omega),
      List.drop_append_of_le_length (by omega), ih (by rw [List.length_drop]; omega)]

theorem feedN_rest : (feedN f B n s m).2 = m.drop (n * B) := by
  induction n generalizing s m with
  | zero => simp [feedN]
  | succ n ih => rw [feedN, ih, List.drop_drop, Nat.succ_mul, Nat.add_comm]

theorem feed_rest : (feed f B k s m).2 = m.drop ((m.length - k) / B * B) := feedN_rest

theorem blocks_le : (m.length - k) / B * B ≤ m.length :=
  (Nat.div_mul_le_self _ _).trans (Nat.sub_le _ _)

theorem length_feed_rest : (feed f B k s m).2.length = m.length - (m.length - k) / B * B := by
  rw [feed_rest, List.length_drop]

/-- Input in two pieces. -/
theorem feed_append (hB : 0 < B) : feed f B k s (m ++ m') =
    feed f B k (feed f B k s m).1 ((feed f B k s m).2 ++ m') := by
  have hle := blocks_le (m := m) (k := k) (B := B)
  have hcount : ((m ++ m').length - k) / B =
      (m.length - k) / B + (((feed f B k s m).2 ++ m').length - k) / B := by
    rw [List.length_append, List.length_append, length_feed_rest]
    rcases Nat.lt_or_ge m.length k with hlt | hge
    · rw [Nat.sub_eq_zero_of_le hlt.le, Nat.zero_div, Nat.zero_mul, Nat.zero_add, Nat.sub_zero]
    · have hdiv := Nat.div_mul_le_self (m.length - k) B
      have hsum : m.length + m'.length - k = B * ((m.length - k) / B) +
          (m.length - (m.length - k) / B * B + m'.length - k) := by
        rw [Nat.mul_comm B]
        omega
      rw [hsum, Nat.mul_add_div hB]
  rw [feed, hcount, feedN_add, feedN_append hle, feed]
  rfl

/-- Too little input for a block is kept. -/
theorem feed_of_lt (hB : 0 < B) (h : m.length < B + k) : feed f B k s m = (s, m) := by
  rw [feed, Nat.div_eq_of_lt (by omega), feedN]

/-- One block, and enough after it. -/
theorem feed_block (hB : 0 < B) (hm : m.length = B) (h : k ≤ m'.length) :
    feed f B k s (m ++ m') = feed f B k (f s m) m' := by
  rw [feed, List.length_append, hm, Nat.add_sub_assoc h, Nat.add_div_left _ hB, feedN, feed,
    List.take_left' hm, List.drop_left' hm]

/-! ## A buffer of one block -/

/-- Copy the first `n` elements of the input to the place `left` of the buffer. -/
def copyTo (buffer : List β) (left : Nat) (input : List β) (n : Nat) : List β :=
  buffer.take left ++ input.take n ++ buffer.drop (left + n)

section Copy

variable {buffer input : List β} {left : Nat}

theorem length_copyTo (h : left + n ≤ buffer.length) (hn : n ≤ input.length) :
    (copyTo buffer left input n).length = buffer.length := by
  rw [copyTo, List.length_append, List.length_append, List.length_take, List.length_take,
    List.length_drop]
  omega

theorem take_copyTo (h : left + n ≤ buffer.length) (hn : n ≤ input.length) :
    (copyTo buffer left input n).take (left + n) = buffer.take left ++ input.take n := by
  have hlen : (buffer.take left ++ input.take n).length = left + n := by
    rw [List.length_append, List.length_take, List.length_take]
    omega
  rw [copyTo, List.take_left' hlen]

@[simp] theorem copyTo_zero : copyTo buffer left input 0 = buffer := by
  rw [copyTo, List.take_zero, List.append_nil, Nat.add_zero, List.take_append_drop]

end Copy

/-- After the input `m` from the state `s₀` on, the state is `s`, and the first `n` elements of the
buffer are those that no block has yet. -/
structure Buffered (f : S → List β → S) (B k : Nat) (s₀ : S) (m : List β) (s : S)
    (buffer : List β) (n : Nat) : Prop where
  length : buffer.length = B
  le : n ≤ B
  feed : feed f B k s₀ m = (s, buffer.take n)

namespace Buffered

variable {s₀ : S} {x y buffer : List β}

/-- Nothing has come yet. -/
theorem start (hB : 0 < B) (h : buffer.length = B) : Buffered f B k s [] s buffer 0 :=
  ⟨h, Nat.zero_le B, by rw [feed_of_lt hB (Nat.add_pos_left hB k), List.take_zero]⟩

theorem length_take (h : Buffered f B k s₀ m s buffer n) : (buffer.take n).length = n := by
  rw [List.length_take, h.length, Nat.min_eq_left h.le]

/-- The elements of the buffer come before the next piece. -/
theorem feed_append (hB : 0 < B) (h : Buffered f B k s₀ m s buffer n) :
    Lib.feed f B k s₀ (m ++ x) = Lib.feed f B k s (buffer.take n ++ x) := by
  rw [Lib.feed_append hB, h.feed]

/-- A piece that does not complete a block. -/
theorem keep (hB : 0 < B) (h : Buffered f B k s₀ m s buffer n) (hle : n + x.length ≤ B)
    (hlt : n + x.length < B + k) :
    Buffered f B k s₀ (m ++ x) s (copyTo buffer n (x ++ y) x.length) (n + x.length) := by
  have hcopy : n + x.length ≤ buffer.length := by rwa [h.length]
  have hinput : x.length ≤ (x ++ y).length := by
    rw [List.length_append]
    exact Nat.le_add_right _ _
  have hsmall : (buffer.take n ++ x).length < B + k := by rwa [List.length_append, h.length_take]
  refine ⟨by rw [length_copyTo hcopy hinput, h.length], hle, ?_⟩
  rw [h.feed_append hB, feed_of_lt hB hsmall, take_copyTo hcopy hinput, List.take_left]

/-- A piece that completes a block, and leaves `k` elements. -/
theorem fill (hB : 0 < B) (h : Buffered f B k s₀ m s buffer n) (hle : B + k ≤ n + x.length) :
    copyTo buffer n (x ++ y) (B - n) = buffer.take n ++ x.take (B - n) ∧
      Lib.feed f B k s₀ (m ++ x) =
        Lib.feed f B k (f s (copyTo buffer n (x ++ y) (B - n))) (x.drop (B - n)) := by
  have hn := h.le
  have hfill : B - n ≤ x.length := by omega
  have hcopy : copyTo buffer n (x ++ y) (B - n) = buffer.take n ++ x.take (B - n) := by
    rw [copyTo, List.take_append_of_le_length hfill, Nat.add_sub_cancel' hn,
      List.drop_eq_nil_of_le h.length.le, List.append_nil]
  have hblock : (buffer.take n ++ x.take (B - n)).length = B := by
    rw [List.length_append, h.length_take, List.length_take]
    omega
  have hrest : k ≤ (x.drop (B - n)).length := by
    rw [List.length_drop]
    omega
  refine ⟨hcopy, ?_⟩
  rw [hcopy, ← feed_block hB hblock hrest, List.append_assoc, List.take_append_drop,
    h.feed_append hB]

/-- What is left after the blocks of `x` goes to the begin of the buffer. -/
theorem of_feed (hk : k ≤ 1) (hB : 0 < B) (hbuffer : buffer.length = B)
    (hfeed : Lib.feed f B k s₀ m = Lib.feed f B k s x) :
    Buffered f B k s₀ m (feedN f B ((x.length - k) / B) s x).1
      (copyTo buffer 0 ((x ++ y).drop ((x.length - k) / B * B))
        (x.length - (x.length - k) / B * B)) (x.length - (x.length - k) / B * B) := by
  have hblocks : (x.length - k) / B * B ≤ x.length := blocks_le
  have hmod := Nat.div_add_mod' (x.length - k) B
  have hlt := Nat.mod_lt (x.length - k) hB
  have hle : x.length - (x.length - k) / B * B ≤ B := by omega
  have hdrop : (x ++ y).drop ((x.length - k) / B * B) = x.drop ((x.length - k) / B * B) ++ y :=
    List.drop_append_of_le_length hblocks
  have hlen : (x.drop ((x.length - k) / B * B)).length = x.length - (x.length - k) / B * B :=
    List.length_drop
  have hcopy : 0 + (x.length - (x.length - k) / B * B) ≤ buffer.length := by
    rwa [Nat.zero_add, hbuffer]
  have hinput : x.length - (x.length - k) / B * B ≤
      (x.drop ((x.length - k) / B * B) ++ y).length := by
    rw [List.length_append, hlen]
    exact Nat.le_add_right _ _
  have htake := take_copyTo hcopy hinput
  rw [Nat.zero_add, List.take_zero, List.nil_append, List.take_left' hlen] at htake
  refine ⟨by rw [hdrop, length_copyTo hcopy hinput, hbuffer], hle, ?_⟩
  rw [hdrop, htake, hfeed, Lib.feed, ← feedN_rest]

end Buffered

end Hashish.Lib
