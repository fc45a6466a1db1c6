import Hashish.HashJenkins3
import Hashish.HashMurmur
import Hashish.Types

/-!
# Hash functions of keys

A table hashes a key at the address the caller gives, and later at the address of its
own copy. It takes a hash function for a function of the bytes of a key (`HashFunc`).
`lhi_hash_murmur` and `lhi_hash_jenkins3`, which read memory in ways that depend on the
address, are such functions.
-/

namespace Hashish

open Hashish.Lib

/-- The bytes of the key lie at the address. -/
def Key.LiesAt (key : Key) (mem : Nat → UInt8) (p : Nat) : Prop :=
  bytesAt mem p key.bytes.length = key.bytes

/-- `lhi_hash_murmur` as the table uses it. -/
def murmurFunc : HashFunc :=
  ⟨0, fun bytes len => murmurBytes (0 ^^^ len) (bytes.take len.toNat)⟩

/-- `lhi_hash_jenkins3` as the table uses it. -/
def jenkins3Func : HashFunc :=
  ⟨1, fun bytes len =>
    let a := 0xdeadbeef + len
    jenkinsBytes ⟨a, a, a⟩ (bytes.take len.toNat)⟩

variable {mem mem' : Nat → UInt8} {p p' : Nat} {key : Key}

theorem Key.LiesAt.bytesAt_keylen (h : key.LiesAt mem p) :
    bytesAt mem p key.keylen.toNat = key.bytes := by
  rw [Key.toNat_keylen]
  exact h

theorem lhiHashMurmur_eq_hash (h : key.LiesAt mem p) :
    lhiHashMurmur mem p key.keylen = murmurFunc.hash key := by
  rw [lhiHashMurmur, murmurHash2_eq, h.bytesAt_keylen]
  show _ = murmurBytes (0 ^^^ key.keylen) (key.bytes.take key.keylen.toNat)
  rw [Key.take_keylen]

theorem lhiHashJenkins3_eq_hash (h : key.LiesAt mem p) :
    lhiHashJenkins3 mem p key.keylen = jenkins3Func.hash key := by
  rw [lhiHashJenkins3, hashlittle_eq, h.bytesAt_keylen]
  show _ = jenkinsBytes _ (key.bytes.take key.keylen.toNat)
  rw [Key.take_keylen, UInt32.ofNat_toNat, UInt32.add_zero]

/-- The hash of a key does not depend on where the key lies. -/
theorem key_hashes_ignore_address (h : key.LiesAt mem p) (h' : key.LiesAt mem' p') :
    lhiHashMurmur mem p key.keylen = lhiHashMurmur mem' p' key.keylen ∧
      lhiHashJenkins3 mem p key.keylen = lhiHashJenkins3 mem' p' key.keylen :=
  ⟨(lhiHashMurmur_eq_hash h).trans (lhiHashMurmur_eq_hash h').symm,
    (lhiHashJenkins3_eq_hash h).trans (lhiHashJenkins3_eq_hash h').symm⟩

/-- A key of six bytes at an aligned address and at one that is not. -/
theorem key_hashes_ignore_address_six :
    lhiHashMurmur (fun i => UInt8.ofNat i) 4 6 = lhiHashMurmur (fun i => UInt8.ofNat (i - 1)) 5 6 ∧
      lhiHashJenkins3 (fun i => UInt8.ofNat i) 4 6 =
        lhiHashJenkins3 (fun i => UInt8.ofNat (i - 1)) 5 6 :=
  let key : Key := ⟨[4, 5, 6, 7, 8, 9], by decide⟩
  have h : key.LiesAt (fun i => UInt8.ofNat i) 4 := rfl
  have h' : key.LiesAt (fun i => UInt8.ofNat (i - 1)) 5 := rfl
  key_hashes_ignore_address h h'

end Hashish
