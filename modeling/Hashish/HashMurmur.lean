import Hashish.Lib.LittleEndian

/-!
# MurmurHash2 (`hash_func_murmur.c`)

The functions read the key from a memory at an address, as on a little-endian machine.
At an address that is not divisible by four they only read aligned words, and put each
word of the key together from two of them.

* `murmurHash2_eq`: the value is a function of the bytes, wherever they lie.
-/

namespace Hashish

open Hashish.Lib

def murmurMagic : UInt32 := 0x5bd1e995

def murmurRotate : UInt32 := 24

/-- The value of `h` after the macro `MIX`. -/
def murmurMix (h k : UInt32) : UInt32 :=
  let k := k * murmurMagic
  let k := k ^^^ k >>> murmurRotate
  let k := k * murmurMagic
  let h := h * murmurMagic
  h ^^^ k

/-- `murmur_fini`. -/
def murmurFini (h : UInt32) : UInt32 :=
  let h := h ^^^ h >>> 13
  let h := h * murmurMagic
  h ^^^ h >>> 15

section Memory

variable (mem : Nat → UInt8)

/-- The `switch` that takes bytes into a register, from its case `n` on. The cases fall through. -/
def murmurRegister (data : Nat) : Nat → UInt32 → UInt32
  | 0, d => d
  | n + 1, d => murmurRegister data n (d ||| (mem (data + n)).toUInt32 <<< byteShift n)

/-- The `switch` for the tail bytes, from its case `n` on. The cases fall through. -/
def murmurTail (data : Nat) : Nat → UInt32 → UInt32
  | 0, h => h
  | 1, h => (h ^^^ (mem data).toUInt32) * murmurMagic
  | n + 2, h =>
    murmurTail data (n + 1) (h ^^^ (mem (data + (n + 1))).toUInt32 <<< byteShift (n + 1))

/-- The loop of `murmur_hash_unaligned`, with the values of `len`, `data`, `t` and `h` at its end. -/
def murmurShiftLoop (sl sr : UInt32) : Nat → Nat → UInt32 → UInt32 → Nat × Nat × UInt32 × UInt32
  | len + 4, data, t, h =>
    let d := loadLe mem data 4
    let t := t >>> sr ||| d <<< sl
    murmurShiftLoop sl sr len (data + 4) d (murmurMix h t)
  | len, data, t, h => (len, data, t, h)

/-- `murmur_hash_unaligned`. -/
def murmurHashUnaligned (data len : Nat) (h : UInt32) : UInt32 :=
  let align := data % 4
  -- The cases of the `switch` are named by the misalignment.
  let t := murmurRegister mem data (4 - align) 0
  let t := t <<< byteShift align
  let data := data + (4 - align)
  let len := len - (4 - align)
  let sl := byteShift (4 - align)
  let sr := byteShift align
  let (len, data, t, h) := murmurShiftLoop mem sl sr len data t h
  if align ≤ len then
    let d := murmurRegister mem data align 0
    let k := t >>> sr ||| d <<< sl
    let h := murmurMix h k
    murmurFini (murmurTail mem (data + align) (len - align) h)
  else
    let d := murmurRegister mem data len 0
    murmurFini ((h ^^^ (t >>> sr ||| d <<< sl)) * murmurMagic)

/-- The loop of `murmur_hash2`, with the values of `len`, `data` and `h` at its end. -/
def murmurLoop : Nat → Nat → UInt32 → Nat × Nat × UInt32
  | len + 4, data, h => murmurLoop len (data + 4) (murmurMix h (loadLe mem data 4))
  | len, data, h => (len, data, h)

/-- `murmur_hash2`. -/
def murmurHash2 (key : Nat) (len seed : UInt32) : UInt32 :=
  let h := seed ^^^ len
  if key % 4 ≠ 0 ∧ 4 ≤ len.toNat then murmurHashUnaligned mem key len.toNat h
  else
    let (len, data, h) := murmurLoop mem len.toNat key h
    murmurFini (murmurTail mem data len h)

/-- `lhi_hash_murmur`. -/
def lhiHashMurmur (key : Nat) (len : UInt32) : UInt32 := murmurHash2 mem key len 0

end Memory

/-- The hash of some bytes: one word after the other, and the last bytes together. -/
def murmurBytes : UInt32 → List UInt8 → UInt32
  | h, a :: b :: c :: d :: bytes => murmurBytes (murmurMix h (leWord [a, b, c, d])) bytes
  | h, [] => murmurFini h
  | h, bytes => murmurFini ((h ^^^ leWord bytes) * murmurMagic)

variable {mem : Nat → UInt8} {data len n : Nat} {h : UInt32}

theorem murmurBytes_word {word bytes : List UInt8} (hword : word.length = 4) :
    murmurBytes h (word ++ bytes) = murmurBytes (murmurMix h (leWord word)) bytes := by
  match word, hword with
  | [a, b, c, d], _ => rfl

theorem murmurBytes_rest {bytes : List UInt8} (hpos : bytes ≠ []) (hlt : bytes.length < 4) :
    murmurBytes h bytes = murmurFini ((h ^^^ leWord bytes) * murmurMagic) := by
  match bytes, hpos, hlt with
  | [_], _, _ => rfl
  | [_, _], _, _ => rfl
  | [_, _, _], _, _ => rfl

/-- A register holds the word of its bytes. -/
theorem murmurRegister_eq {d : UInt32} (hn : n ≤ 4) :
    murmurRegister mem data n d = d ||| leWord (bytesAt mem data n) := by
  induction n generalizing d with
  | zero => exact (UInt32.or_zero).symm
  | succ n ih =>
    rw [murmurRegister, ih (by omega), bytesAt_add, ← leWord_or length_bytesAt (by omega),
      UInt32.or_assoc, UInt32.or_comm (leWord _), leWord_bytesAt_one]

theorem murmurTail_eq (hpos : n ≠ 0) (hn : n ≤ 4) :
    murmurTail mem data n h = (h ^^^ leWord (bytesAt mem data n)) * murmurMagic := by
  induction n generalizing h with
  | zero => exact (hpos rfl).elim
  | succ n ih =>
    cases n with
    | zero => rw [murmurTail, leWord_bytesAt_one]
    | succ n =>
      have hword : leWord (bytesAt mem data (n + 1 + 1)) =
          leWord (bytesAt mem data (n + 1)) ^^^
            (mem (data + (n + 1))).toUInt32 <<< byteShift (n + 1) := by
        rw [bytesAt_add, ← leWord_xor length_bytesAt (by omega), leWord_bytesAt_one]
      rw [murmurTail, ih (by omega) (by omega), hword, UInt32.xor_assoc, UInt32.xor_comm (leWord _)]

/-- The tail bytes end the hash. -/
theorem murmurFini_tail (hn : n < 4) :
    murmurFini (murmurTail mem data n h) = murmurBytes h (bytesAt mem data n) := by
  cases n with
  | zero => rfl
  | succ n =>
    have hpos : bytesAt mem data (n + 1) ≠ [] := by
      rw [bytesAt]
      exact List.cons_ne_nil _ _
    rw [murmurTail_eq n.succ_ne_zero hn.le, murmurBytes_rest hpos (by rwa [length_bytesAt])]

/-! ## Aligned keys -/

theorem murmurLoop_eq :
    murmurFini (murmurTail mem (murmurLoop mem len data h).2.1 (murmurLoop mem len data h).1
      (murmurLoop mem len data h).2.2) = murmurBytes h (bytesAt mem data len) := by
  fun_induction murmurLoop mem len data h with
  | case1 len data h ih =>
    have hbytes : bytesAt mem data (len + 4) = bytesAt mem data 4 ++ bytesAt mem (data + 4) len := by
      rw [Nat.add_comm len, bytesAt_add]
    change _ = murmurBytes h (bytesAt mem data (len + 4))
    rw [hbytes, murmurBytes_word length_bytesAt]
    exact ih
  | case2 len data h hlt =>
    exact murmurFini_tail (Nat.lt_of_not_le fun hle => hlt (len - 4) (Nat.sub_add_cancel hle).symm)

/-! ## Keys that are not aligned -/

section Unaligned

variable {align : Nat} {t : UInt32} {q : List UInt8}

/-- The register `t` holds the bytes `q` of the key that come before the next aligned word. -/
structure Carries (align : Nat) (t : UInt32) (q : List UInt8) : Prop where
  length : q.length = 4 - align
  value : t >>> byteShift align = leWord q

/-- The word put together from a register and the first bytes of the next word. -/
theorem Carries.word (hc : Carries align t q) (hpos : 0 < align) {bytes : List UInt8} :
    t >>> byteShift align ||| leWord bytes <<< byteShift (4 - align) = leWord (q ++ bytes) := by
  rw [hc.value]
  exact leWord_or hc.length (by omega)

/-- The bytes of an aligned word that are left when the first ones are taken. -/
theorem carries_load (hlt : align < 4) :
    Carries align (loadLe mem data 4) (bytesAt mem (data + align) (4 - align)) := by
  refine ⟨length_bytesAt, ?_⟩
  rw [loadLe, show bytesAt mem data 4 = bytesAt mem data (align + (4 - align)) by
    rw [Nat.add_sub_cancel' hlt.le], bytesAt_add]
  refine leWord_append_shiftRight length_bytesAt (by omega) ?_
  rw [length_bytesAt, length_bytesAt]
  omega

/-- The loop takes one word of the key after the other. -/
theorem murmurShiftLoop_eq (hpos : 0 < align) (hlt : align < 4) (hc : Carries align t q)
    {len' data' : Nat} {t' h' : UInt32}
    (hr : murmurShiftLoop mem (byteShift (4 - align)) (byteShift align) len data t h =
      (len', data', t', h')) :
    len' < 4 ∧ ∃ q', Carries align t' q' ∧
      murmurBytes h (q ++ bytesAt mem data len) = murmurBytes h' (q' ++ bytesAt mem data' len') := by
  fun_induction murmurShiftLoop mem (byteShift (4 - align)) (byteShift align) len data t h
    generalizing q with
  | case1 =>
    rename_i len data t h d word ih
    have hfirst : bytesAt mem data 4 =
        bytesAt mem data align ++ bytesAt mem (data + align) (4 - align) := by
      rw [← bytesAt_add, Nat.add_sub_cancel' hlt.le]
    have hlen : (q ++ bytesAt mem data align).length = 4 := by
      rw [List.length_append, hc.length, length_bytesAt]
      omega
    have hword : word = leWord (q ++ bytesAt mem data align) := by
      rw [show word = leWord (q ++ bytesAt mem data 4) from hc.word hpos, hfirst,
        ← List.append_assoc, leWord_append_of_length hlen]
    have hbytes : q ++ bytesAt mem data (len + 4) = (q ++ bytesAt mem data align) ++
        (bytesAt mem (data + align) (4 - align) ++ bytesAt mem (data + 4) len) := by
      rw [Nat.add_comm len, bytesAt_add, hfirst, List.append_assoc, List.append_assoc]
    obtain ⟨hlt', q', hc', heq⟩ := ih (carries_load hlt) hr
    refine ⟨hlt', q', hc', ?_⟩
    change murmurBytes h (q ++ bytesAt mem data (len + 4)) = _
    rw [hbytes, murmurBytes_word hlen, ← hword]
    exact heq
  | case2 =>
    rename_i len data t h hend
    have hend' : len < 4 :=
      Nat.lt_of_not_le fun hle => hend (len - 4) (Nat.sub_add_cancel hle).symm
    cases hr
    exact ⟨hend', q, hc, rfl⟩

/-- The bytes at an address that is not aligned give the same hash as the bytes themselves. -/
theorem murmurHashUnaligned_eq (hpos : 0 < data % 4) (hlen : 4 ≤ len) :
    murmurHashUnaligned mem data len h = murmurBytes h (bytesAt mem data len) := by
  obtain ⟨align, halign⟩ : ∃ align, data % 4 = align := ⟨_, rfl⟩
  have hlt : align < 4 := halign ▸ Nat.mod_lt _ (by decide)
  rw [halign] at hpos
  have hstart : Carries align (murmurRegister mem data (4 - align) 0 <<< byteShift align)
      (bytesAt mem data (4 - align)) := by
    refine ⟨length_bytesAt, ?_⟩
    rw [murmurRegister_eq (by omega), UInt32.zero_or]
    refine leWord_shiftLeft_shiftRight (by omega) ?_
    rw [length_bytesAt]
    omega
  have hbytes : bytesAt mem data len =
      bytesAt mem data (4 - align) ++ bytesAt mem (data + (4 - align)) (len - (4 - align)) := by
    rw [← bytesAt_add, Nat.add_sub_cancel' (by omega)]
  unfold murmurHashUnaligned
  simp only [halign]
  generalize hr : murmurShiftLoop mem (byteShift (4 - align)) (byteShift align) (len - (4 - align))
    (data + (4 - align)) (murmurRegister mem data (4 - align) 0 <<< byteShift align) h = r
  obtain ⟨len', data', t', h'⟩ := r
  obtain ⟨hlt', q, hc, heq⟩ := murmurShiftLoop_eq hpos hlt hstart hr
  rw [hbytes, heq]
  dsimp only
  rw [murmurRegister_eq (n := align) hlt.le, murmurRegister_eq (n := len') hlt'.le, UInt32.zero_or,
    UInt32.zero_or, hc.word hpos, hc.word hpos]
  split
  · next hle =>
    have hword : (q ++ bytesAt mem data' align).length = 4 := by
      rw [List.length_append, hc.length, length_bytesAt]
      omega
    have hrest : q ++ bytesAt mem data' len' =
        (q ++ bytesAt mem data' align) ++ bytesAt mem (data' + align) (len' - align) := by
      rw [List.append_assoc, ← bytesAt_add, Nat.add_sub_cancel' hle]
    rw [murmurFini_tail (by omega), hrest, murmurBytes_word hword]
  · next hgt =>
    have hsum : (q ++ bytesAt mem data' len').length < 4 := by
      rw [List.length_append, hc.length, length_bytesAt]
      omega
    have hne : q ++ bytesAt mem data' len' ≠ [] := by
      refine List.ne_nil_of_length_pos ?_
      rw [List.length_append, hc.length]
      omega
    rw [murmurBytes_rest hne hsum]

end Unaligned

/-- The hash is a function of the bytes, wherever they lie. -/
theorem murmurHash2_eq {key : Nat} {len seed : UInt32} :
    murmurHash2 mem key len seed = murmurBytes (seed ^^^ len) (bytesAt mem key len.toNat) := by
  unfold murmurHash2
  split
  · next hmis => exact murmurHashUnaligned_eq (Nat.pos_of_ne_zero hmis.1) hmis.2
  · exact murmurLoop_eq

end Hashish
