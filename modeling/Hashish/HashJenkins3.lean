import Hashish.Lib.LittleEndian

/-!
# Jenkins' third hash (`hash_func_jenkins3.c`)

`hashlittle` reads the key from a memory at an address, as on a little-endian machine,
and takes words, half words or bytes as the address allows. The three arms go through
the key alike, in blocks of three words, and differ in how they add the bytes of a word
to a register.

* `hashlittle_eq`: the value is a function of the bytes, wherever they lie.
-/

namespace Hashish

open Hashish.Lib

/-- The registers of `hashlittle`. -/
structure JenkinsState where
  a : UInt32
  b : UInt32
  c : UInt32
deriving DecidableEq, Repr

def rot (x k : UInt32) : UInt32 := x <<< k ||| x >>> (32 - k)

/-- The macro `mix`. -/
def jenkinsMix (s : JenkinsState) : JenkinsState :=
  let ⟨a, b, c⟩ := s
  let a := a - c
  let a := a ^^^ rot c 4
  let c := c + b
  let b := b - a
  let b := b ^^^ rot a 6
  let a := a + c
  let c := c - b
  let c := c ^^^ rot b 8
  let b := b + a
  let a := a - c
  let a := a ^^^ rot c 16
  let c := c + b
  let b := b - a
  let b := b ^^^ rot a 19
  let a := a + c
  let c := c - b
  let c := c ^^^ rot b 4
  let b := b + a
  ⟨a, b, c⟩

/-- The macro `final`. -/
def jenkinsFinal (s : JenkinsState) : JenkinsState :=
  let ⟨a, b, c⟩ := s
  let c := c ^^^ b
  let c := c - rot b 14
  let a := a ^^^ c
  let a := a - rot c 11
  let b := b ^^^ a
  let b := b - rot a 25
  let c := c ^^^ b
  let c := c - rot b 16
  let a := a ^^^ c
  let a := a - rot c 4
  let b := b ^^^ a
  let b := b - rot a 14
  let c := c ^^^ b
  let c := c - rot b 24
  ⟨a, b, c⟩

section Memory

variable (mem : Nat → UInt8)

/-- The cases of a word in the arm that reads bytes. They fall through. -/
def addBytes (k : Nat) : Nat → UInt32 → UInt32
  | 0, x => x
  | n + 1, x => addBytes k n (x + (mem (k + n)).toUInt32 <<< byteShift n)

/-- The cases of a word in the arm that reads words. -/
def addWord (k : Nat) : Nat → UInt32 → UInt32
  | 4, x => x + loadLe mem k 4
  | n, x => addBytes mem k n x

/-- The cases of a word in the arm that reads half words. -/
def addHalves (k : Nat) : Nat → UInt32 → UInt32
  | 4, x => x + (loadLe mem k 2 + loadLe mem (k + 2) 2 <<< byteShift 2)
  | 3, x => x + (mem (k + 2)).toUInt32 <<< byteShift 2 + loadLe mem k 2
  | 2, x => x + loadLe mem k 2
  | n, x => addBytes mem k n x

end Memory

/-- A block of `n` bytes, at most twelve, is added to the registers. -/
def addBlock (add : Nat → Nat → UInt32 → UInt32) (k n : Nat) (s : JenkinsState) : JenkinsState :=
  if 8 ≤ n then ⟨add k 4 s.a, add (k + 4) 4 s.b, add (k + 8) (n - 8) s.c⟩
  else if 4 ≤ n then ⟨add k 4 s.a, add (k + 4) (n - 4) s.b, s.c⟩
  else ⟨add k n s.a, s.b, s.c⟩

/-- An arm of `hashlittle`: the loop over all blocks but the last, and the last block. -/
def hashBlocks (add : Nat → Nat → UInt32 → UInt32) : Nat → Nat → JenkinsState → UInt32
  | length + 13, k, s => hashBlocks add (length + 1) (k + 12) (jenkinsMix (addBlock add k 12 s))
  | 0, _, s => s.c
  | length, k, s => (jenkinsFinal (addBlock add k length s)).c

/-- `hashlittle`. -/
def hashlittle (mem : Nat → UInt8) (key length : Nat) (initval : UInt32) : UInt32 :=
  let a := 0xdeadbeef + UInt32.ofNat length + initval
  if key % 4 = 0 then hashBlocks (addWord mem) length key ⟨a, a, a⟩
  else if key % 2 = 0 then hashBlocks (addHalves mem) length key ⟨a, a, a⟩
  else hashBlocks (addBytes mem) length key ⟨a, a, a⟩

/-- `lhi_hash_jenkins3`. -/
def lhiHashJenkins3 (mem : Nat → UInt8) (b : Nat) (len : UInt32) : UInt32 :=
  hashlittle mem b len.toNat 0

/-! ## The hash of bytes -/

/-- The registers with the words of a block added. -/
def JenkinsState.add (s : JenkinsState) (bytes : List UInt8) : JenkinsState :=
  ⟨s.a + leWord (bytes.take 4), s.b + leWord ((bytes.drop 4).take 4), s.c + leWord (bytes.drop 8)⟩

/-- The hash of some bytes: one block of twelve after the other, and the last bytes together. -/
def jenkinsBytes (s : JenkinsState) (bytes : List UInt8) : UInt32 :=
  if 12 < bytes.length then jenkinsBytes (jenkinsMix (s.add (bytes.take 12))) (bytes.drop 12)
  else if bytes = [] then s.c
  else (jenkinsFinal (s.add bytes)).c
termination_by bytes.length
decreasing_by
  rw [List.length_drop]
  omega

/-- An arm adds the word of the bytes. -/
def AddsWord (mem : Nat → UInt8) (add : Nat → Nat → UInt32 → UInt32) : Prop :=
  ∀ k, ∀ n ≤ 4, ∀ x, add k n x = x + leWord (bytesAt mem k n)

variable {mem : Nat → UInt8} {add : Nat → Nat → UInt32 → UInt32} {k n : Nat} {s : JenkinsState}

theorem addsWord_addBytes : AddsWord mem (addBytes mem) := by
  intro k n hn x
  induction n generalizing x with
  | zero => exact (UInt32.add_zero x).symm
  | succ n ih =>
    rw [addBytes, ih (by omega), bytesAt_add, ← leWord_add length_bytesAt (by omega),
      leWord_bytesAt_one, UInt32.add_assoc, UInt32.add_comm (leWord _)]

theorem addsWord_addWord : AddsWord mem (addWord mem) := by
  intro k n hn x
  unfold addWord
  split
  · rfl
  · exact addsWord_addBytes k _ hn x

theorem addsWord_addHalves : AddsWord mem (addHalves mem) := by
  intro k n hn x
  unfold addHalves
  split
  · rw [loadLe, loadLe, leWord_add length_bytesAt (by decide), ← bytesAt_add]
  · rw [loadLe, show bytesAt mem k 3 = bytesAt mem k 2 ++ bytesAt mem (k + 2) 1 from
        bytesAt_add (m := 2) (n := 1),
      ← leWord_add length_bytesAt (by decide), leWord_bytesAt_one, UInt32.add_assoc,
      UInt32.add_comm (leWord _)]
  · rfl
  · exact addsWord_addBytes k _ hn x

theorem addBlock_eq (hadd : AddsWord mem add) (hn : n ≤ 12) :
    addBlock add k n s = s.add (bytesAt mem k n) := by
  have hzero : ∀ x : UInt32, x + leWord [] = x := UInt32.add_zero
  unfold addBlock JenkinsState.add
  rw [take_bytesAt, drop_bytesAt, drop_bytesAt, take_bytesAt]
  split
  · next h8 =>
    rw [hadd _ _ le_rfl, hadd _ _ le_rfl, hadd _ _ (by omega), Nat.min_eq_left (by omega),
      Nat.min_eq_left (by omega)]
  · next h8 =>
    rw [Nat.sub_eq_zero_of_le (show n ≤ 8 by omega)]
    split
    · next h4 =>
      rw [hadd _ _ le_rfl, hadd _ _ (by omega), Nat.min_eq_left h4, Nat.min_eq_right (by omega),
        bytesAt, hzero]
    · next h4 =>
      rw [hadd _ _ (by omega), Nat.min_eq_right (by omega),
        Nat.sub_eq_zero_of_le (show n ≤ 4 by omega), Nat.min_zero, bytesAt, hzero, bytesAt, hzero]

theorem hashBlocks_eq (hadd : AddsWord mem add) :
    hashBlocks add n k s = jenkinsBytes s (bytesAt mem k n) := by
  fun_induction hashBlocks add n k s with
  | case1 =>
    rename_i length k s ih
    change _ = jenkinsBytes s (bytesAt mem k (length + 13))
    rw [jenkinsBytes, if_pos (by rw [length_bytesAt]; omega), take_bytesAt, drop_bytesAt, ih,
      addBlock_eq hadd le_rfl, Nat.min_eq_left (by omega), Nat.add_sub_assoc (by decide)]
  | case2 => rw [jenkinsBytes, bytesAt, if_neg (by simp), if_pos rfl]
  | case3 =>
    rename_i length k s hmore hpos
    have hle : length ≤ 12 :=
      Nat.le_of_lt_succ (Nat.lt_of_not_le fun hle => hmore (length - 13) (Nat.sub_add_cancel hle).symm)
    have hne : bytesAt mem k length ≠ [] := by
      refine List.ne_nil_of_length_pos ?_
      rw [length_bytesAt]
      exact Nat.pos_of_ne_zero hpos
    rw [jenkinsBytes, if_neg (by rw [length_bytesAt]; omega), if_neg hne, addBlock_eq hadd hle]

/-- The hash is a function of the bytes, wherever they lie. -/
theorem hashlittle_eq {key length : Nat} {initval : UInt32} :
    hashlittle mem key length initval =
      let a := 0xdeadbeef + UInt32.ofNat length + initval
      jenkinsBytes ⟨a, a, a⟩ (bytesAt mem key length) := by
  unfold hashlittle
  split
  · exact hashBlocks_eq addsWord_addWord
  · split
    · exact hashBlocks_eq addsWord_addHalves
    · exact hashBlocks_eq addsWord_addBytes

end Hashish
