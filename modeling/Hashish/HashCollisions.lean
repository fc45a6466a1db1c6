import Hashish.ByteHashes
import Hashish.HashMurmur
import Hashish.Lib.Mixing

/-!
# Keys that cannot collide

Eight of the hash functions tell keys of one length apart that differ in one byte: the step that
takes a byte loses neither the hash nor the byte. `lhi_hash_murmur` takes words, and tells two keys
apart that differ in one word. Among the keys of one length of up to four bytes, such as integers, it
has no collisions.

* `single_changes_separated`: the eight functions and single bytes, `lhi_hash_murmur` and words.
* `lhiHashMurmur_short`: `lhi_hash_murmur` and short keys.
-/

namespace Hashish

open Hashish.Lib

/-- Two keys that differ in one byte at most have equal values only if they are equal. -/
def SeparatesBytes (f : (Nat → UInt8) → Nat → UInt32 → UInt32) : Prop :=
  ∀ mem mem' p p' (len : UInt32) (xs ys : List UInt8) a b,
    bytesAt mem p len.toNat = xs ++ a :: ys → bytesAt mem' p' len.toNat = xs ++ b :: ys →
      (f mem p len = f mem' p' len ↔ a = b)

/-- Two keys that differ in one word at most, full or at their end, have equal values only if they
are equal. -/
def SeparatesWords (f : (Nat → UInt8) → Nat → UInt32 → UInt32) : Prop :=
  ∀ mem mem' p p' (len : UInt32) (xs word word' ys : List UInt8),
    bytesAt mem p len.toNat = xs ++ (word ++ ys) →
    bytesAt mem' p' len.toNat = xs ++ (word' ++ ys) →
    4 ∣ xs.length → word.length = word'.length → word.length ≤ 4 →
    (word.length = 4 ∨ ys = []) → (f mem p len = f mem' p' len ↔ word = word')

/-! ## Single bytes -/

theorem separatesBytes_eachByte {f : UInt32 → UInt8 → UInt32} (hf : Mixes f) (s : UInt32) :
    SeparatesBytes fun mem p len => eachByte mem f p len.toNat s := by
  intro mem mem' p p' len xs ys a b h h'
  dsimp only
  rw [eachByte_eq, eachByte_eq, h, h']
  exact hf.foldl_eq_iff

theorem mixes_affine {u v : UInt32} (h : u * v = 1) (k : UInt32) :
    Mixes fun (hash : UInt32) (c : UInt8) => hash * u + c.toUInt32 + k where
  state c x y heq := word_mul_injective h (by simpa using heq)
  part s a b heq := UInt8.toUInt32_inj.mp (by simpa using heq)

theorem mixes_xor : Mixes fun (hash : UInt32) (c : UInt8) => hash ^^^ c.toUInt32 where
  state c x y heq := by simpa using heq
  part s a b heq := UInt8.toUInt32_inj.mp (by simpa using heq)

/-! ## Words -/

theorem murmurMagic_unit : murmurMagic * 0xe59b19bd = 1 := by decide

theorem mixes_murmurMix : Mixes murmurMix where
  state k x y heq := word_mul_injective murmurMagic_unit (by simpa [murmurMix] using heq)
  part h a b heq := by
    have hword := word_mul_injective murmurMagic_unit ((UInt32.xor_right_inj _).mp heq)
    exact word_mul_injective murmurMagic_unit (word_shiftRight_injective (by decide) hword)

theorem murmurFini_injective : Function.Injective murmurFini := by
  intro x y heq
  have hmul := word_shiftRight_injective (by decide) heq
  exact word_shiftRight_injective (by decide) (word_mul_injective murmurMagic_unit hmul)

/-- The end of the hash loses neither the hash nor the last word. -/
theorem murmurEnd_injective (word : UInt32) :
    Function.Injective fun h => murmurFini ((h ^^^ word) * murmurMagic) := by
  intro x y heq
  exact (UInt32.xor_left_inj _).mp (word_mul_injective murmurMagic_unit (murmurFini_injective heq))

theorem murmurBytes_injective : ∀ bytes, Function.Injective fun h => murmurBytes h bytes
  | [] => murmurFini_injective
  | [_] | [_, _] | [_, _, _] => murmurEnd_injective _
  | _ :: _ :: _ :: _ :: bytes => (murmurBytes_injective bytes).comp (mixes_murmurMix.state _)

/-- Full words come down to the hash after them. -/
theorem murmurBytes_append : ∀ (xs : List UInt8) (h : UInt32), 4 ∣ xs.length →
    ∃ h', ∀ ys, murmurBytes h (xs ++ ys) = murmurBytes h' ys
  | [], h, _ => ⟨h, fun _ => rfl⟩
  | [_], _, hdvd | [_, _], _, hdvd | [_, _, _], _, hdvd => absurd hdvd (by simp)
  | a :: b :: c :: d :: xs, h, hdvd =>
    have hrest : 4 ∣ xs.length := (Nat.dvd_add_left (Nat.dvd_refl 4)).mp hdvd
    let ⟨h', heq⟩ := murmurBytes_append xs (murmurMix h (leWord [a, b, c, d])) hrest
    ⟨h', fun ys => heq ys⟩

/-- One word, and what comes after it. -/
theorem murmurBytes_eq_iff {h : UInt32} {word word' ys : List UInt8}
    (hlen : word.length = word'.length) (hle : word.length ≤ 4) (hend : word.length = 4 ∨ ys = []) :
    murmurBytes h (word ++ ys) = murmurBytes h (word' ++ ys) ↔ word = word' := by
  refine ⟨fun heq => (leWord_inj hlen hle).mp ?_, fun heq => heq ▸ rfl⟩
  rcases hle.lt_or_eq with hlt | hfull
  -- The last bytes take the way of the tail.
  · obtain rfl : ys = [] := hend.resolve_left hlt.ne
    rw [List.append_nil, List.append_nil] at heq
    by_cases hnil : word = []
    · subst hnil
      rw [List.eq_nil_of_length_eq_zero hlen.symm]
    · have hnil' : word' ≠ [] := fun h => hnil (List.eq_nil_of_length_eq_zero (by simp [hlen, h]))
      rw [murmurBytes_rest hnil hlt, murmurBytes_rest hnil' (hlen ▸ hlt)] at heq
      have hword := word_mul_injective murmurMagic_unit (murmurFini_injective heq)
      exact (UInt32.xor_right_inj _).mp hword
  · rw [murmurBytes_word hfull, murmurBytes_word (hlen ▸ hfull)] at heq
    exact mixes_murmurMix.part h (murmurBytes_injective ys heq)

/-! ## The functions -/

theorem lhiHashMurmur_separates : SeparatesWords lhiHashMurmur := by
  intro mem mem' p p' len xs word word' ys hbytes hbytes' hdvd hlen hle hend
  obtain ⟨h, hxs⟩ := murmurBytes_append xs (0 ^^^ len) hdvd
  rw [lhiHashMurmur, lhiHashMurmur, murmurHash2_eq, murmurHash2_eq, hbytes, hbytes', hxs, hxs]
  exact murmurBytes_eq_iff hlen hle hend

/-- A byte lies in a word. -/
theorem SeparatesWords.bytes {f : (Nat → UInt8) → Nat → UInt32 → UInt32}
    (hf : SeparatesWords f) : SeparatesBytes f := by
  intro mem mem' p p' len xs ys a b h h'
  -- The word of the byte has the bytes after the last full word before it, and up to three after it.
  obtain ⟨full, front, rfl, hfull, hfront⟩ : ∃ full front, xs = full ++ front ∧
      4 ∣ full.length ∧ front.length < 4 := by
    refine ⟨xs.take (4 * (xs.length / 4)), xs.drop (4 * (xs.length / 4)),
      (List.take_append_drop _ _).symm, ?_, ?_⟩
    · rw [List.length_take, Nat.min_eq_left (Nat.mul_div_le _ _)]
      exact Nat.dvd_mul_right _ _
    · rw [List.length_drop]
      omega
  obtain ⟨back, rest, rfl, hle, hend⟩ : ∃ back rest, ys = back ++ rest ∧
      back.length ≤ 3 - front.length ∧ (back.length = 3 - front.length ∨ rest = []) := by
    refine ⟨ys.take (3 - front.length), ys.drop (3 - front.length),
      (List.take_append_drop _ _).symm, List.length_take_le _ _, ?_⟩
    rw [List.length_take, List.drop_eq_nil_iff]
    omega
  have hword : ∀ c, (full ++ front) ++ c :: (back ++ rest) =
      full ++ ((front ++ c :: back) ++ rest) := fun c => by simp
  have hlen : ∀ c, (front ++ c :: back).length = front.length + back.length + 1 := fun c => by
    simp [Nat.add_assoc]
  rw [hword] at h h'
  rw [hf mem mem' p p' len full _ _ rest h h' hfull (by rw [hlen, hlen]) (by rw [hlen]; omega)
    (hend.imp (fun hback => by rw [hlen]; omega) id)]
  simp

/-- Two keys of up to four bytes have equal values only if they are equal. -/
theorem lhiHashMurmur_short {mem mem' : Nat → UInt8} {p p' : Nat} {len : UInt32}
    (hle : len.toNat ≤ 4) : lhiHashMurmur mem p len = lhiHashMurmur mem' p' len ↔
      bytesAt mem p len.toNat = bytesAt mem' p' len.toNat :=
  lhiHashMurmur_separates mem mem' p p' len [] _ _ [] (by simp) (by simp) (Nat.dvd_zero 4)
    (by rw [length_bytesAt, length_bytesAt]) (by rwa [length_bytesAt]) (.inr rfl)

/-- Keys that differ in one byte have different values under eight of the functions, and keys that
differ in one word under `lhi_hash_murmur`. -/
theorem single_changes_separated :
    SeparatesBytes lhiHashTorek ∧ SeparatesBytes lhiHashPhong ∧ SeparatesBytes lhiHashKr ∧
    SeparatesBytes lhiHashSdbm ∧ SeparatesBytes lhiHashDjb2 ∧
    SeparatesBytes lhiHashKorzendorfer1 ∧ SeparatesBytes lhiHashXor ∧
    SeparatesBytes lhiHashMurmur ∧ SeparatesWords lhiHashMurmur := by
  -- Every factor has an inverse modulo `2 ^ 32`.
  have htorek := separatesBytes_eachByte (mixes_affine (u := 33) (v := 1041204193) (by decide) 0) 0
  have hphong := separatesBytes_eachByte
    (mixes_affine (u := 129) (v := 266354561) (by decide) 987654321) 0
  have hkr := separatesBytes_eachByte (mixes_affine (u := 1) (v := 1) (by decide) 0) 0
  have hsdbm := separatesBytes_eachByte
    (mixes_affine (u := 65599) (v := 2390421439) (by decide) 0) 0
  have hdjb2 := separatesBytes_eachByte
    (mixes_affine (u := 33) (v := 1041204193) (by decide) 0) 5381
  rw [← torekByte_eq] at htorek
  rw [← krByte_eq] at hkr
  rw [← sdbmByte_eq] at hsdbm
  rw [← djb2Byte_eq] at hdjb2
  exact ⟨htorek, hphong, hkr, hsdbm, hdjb2, hkr, separatesBytes_eachByte mixes_xor 0,
    lhiHashMurmur_separates.bytes, lhiHashMurmur_separates⟩

end Hashish
