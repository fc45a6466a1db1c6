import Hashish.HashCube
import Hashish.HashSha1
import Hashish.HashSkein256
import Hashish.KeyHashes

/-!
# The table of the hash functions (`lhi_hashfunc_map`)

* `hash_alg_portable`: a hash function of the table gives a key the same value on every machine, at
  every address, whatever lies around the key and on the stack.
* `long_keys_truncated`: three of them do not take all bytes of a long key.
-/

namespace Hashish

open Hashish.Lib

/-- `enum hash_alg`. `max` is `__HI_HASH_MAX`. -/
inductive HashAlg
  | djb2
  | dumb1
  | elf
  | goulburn
  | hsieh
  | jenkins2
  | jenkins3
  | phong
  | torek
  | xor
  | korzendorfer1
  | korzendorfer2
  | sha1
  | murmur
  | cube
  | skein256
  | max
deriving DecidableEq, Repr

/-- `HI_HASH_DEFAULT`. -/
def hiHashDefault : HashAlg := .hsieh

/-- What the functions find on a machine: the bits of an `unsigned long`, and the bytes that the
buffers of `sha1` and of Skein hold before they are written. -/
structure HashMachine where
  w : Nat
  width : 32 ≤ w
  sha1Buffer : List UInt8
  length_sha1Buffer : sha1Buffer.length = 64
  skeinBuffer : List UInt8
  length_skeinBuffer : skeinBuffer.length = 32

/-- A hash function reads its key from a memory at an address. -/
abbrev HashCode := (Nat → UInt8) → Nat → UInt32 → UInt32

/-- `lhi_hashfunc_map`: the fields `no` and `hashfunc` of its entries. -/
def lhiHashfuncMap (c : HashMachine) : List (HashAlg × HashCode) :=
  [(.djb2, lhiHashDjb2), (.dumb1, fun _ _ _ => 1), (.elf, lhiHashElf),
    (.goulburn, lhiHashGoulburn), (.hsieh, lhiHashHsieh), (.jenkins2, lhiHashJenkins2),
    (.jenkins3, lhiHashJenkins3), (.phong, lhiHashPhong), (.torek, lhiHashTorek),
    (.xor, lhiHashXor), (.korzendorfer1, lhiHashKorzendorfer1),
    (.korzendorfer2, lhiHashKorzendorfer2), (.sha1, lhiHashSha1 c.w c.sha1Buffer),
    (.murmur, lhiHashMurmur), (.cube, lhiHashCube), (.skein256, lhiHashSkein256 c.skeinBuffer)]

/-- A function of the table as a handle calls it, on the bytes of a key. -/
def HashCode.func (f : HashCode) (addr : Nat) : HashFunc :=
  ⟨addr, fun bytes len => f (fun i => bytes.getD i 0) 0 len⟩

/-- The loop of `hi_set_hash_alg` over the table, from the index `i` on. -/
def hashAlgLoop (alg : HashAlg) : List (HashAlg × HashCode) → Nat → Option HashFunc
  | [], _ => none
  | (no, hashfunc) :: rest, i =>
    if alg = no then some (hashfunc.func i) else hashAlgLoop alg rest (i + 1)

/-- `lhi_hashmap` of the Bloom filter. -/
def lhiHashmap : List HashCode :=
  [lhiHashHsieh, lhiHashJenkins3, lhiHashGoulburn, lhiHashPhong, lhiHashTorek, lhiHashXor,
    lhiHashSdbm]

/-! ## Reading the key -/

section Reading

variable {f : HashCode} {key : Key} {mem : Nat → UInt8} {p : Nat}

theorem bytesAt_getD {bytes : Bytes} : bytesAt (fun i => bytes.getD i 0) 0 bytes.length = bytes := by
  suffices hall : ∀ pre, bytesAt (fun i => (pre ++ bytes).getD i 0) pre.length bytes.length = bytes by
    simpa using hall []
  induction bytes with
  | nil => exact fun _ => rfl
  | cons c bytes ih =>
    intro pre
    have hrest := ih (pre ++ [c])
    rw [List.append_assoc, List.singleton_append, List.length_append, List.length_singleton] at hrest
    rw [List.length_cons, bytesAt, hrest]
    simp

/-- What a handle computes for a key is what the function computes where the key lies. -/
theorem ReadsKey.hash_eq (hf : ReadsKey f) (h : key.LiesAt mem p) (addr : Nat) :
    (f.func addr).hash key = f mem p key.keylen := by
  refine hf _ _ _ _ _ ?_
  rw [h.bytesAt_keylen, Key.toNat_keylen, bytesAt_getD]

end Reading

/-- The bytes of a memory as a key. -/
def keyAt (mem : Nat → UInt8) (p : Nat) (len : UInt32) : Key :=
  ⟨bytesAt mem p len.toNat, by
    rw [length_bytesAt]
    exact len.toNat_lt⟩

theorem keylen_keyAt {mem : Nat → UInt8} {p : Nat} {len : UInt32} : (keyAt mem p len).keylen = len := by
  refine UInt32.toNat_inj.mp ?_
  rw [Key.toNat_keylen, keyAt, length_bytesAt]

/-- A function that is known on keys. -/
theorem readsKey_of_hash {f : HashCode} {g : HashFunc}
    (h : ∀ {key : Key} {mem p}, key.LiesAt mem p → f mem p key.keylen = g.hash key) : ReadsKey f := by
  intro mem mem' p p' len hbytes
  have hlies : (keyAt mem p len).LiesAt mem p := by
    rw [Key.LiesAt, keyAt, length_bytesAt]
  have hlies' : (keyAt mem p len).LiesAt mem' p' := by
    rw [Key.LiesAt, keyAt, length_bytesAt, ← hbytes]
  have hleft := h hlies
  have hright := h hlies'
  rw [keylen_keyAt] at hleft hright
  rw [hleft, hright]

/-- The same bytes from two addresses on are the same up to any length that is not larger. -/
theorem bytesAt_congr_le {mem mem' : Nat → UInt8} {p p' m n : Nat} (hle : m ≤ n)
    (h : bytesAt mem p n = bytesAt mem' p' n) : bytesAt mem p m = bytesAt mem' p' m := by
  have htake := congrArg (List.take m) h
  rwa [take_bytesAt, take_bytesAt, Nat.min_eq_left hle] at htake

/-- Two functions that give every key the same value, wherever it lies. -/
def AgreeOnKeys (f f' : HashCode) : Prop :=
  ∀ mem mem' p p' (len : UInt32), bytesAt mem p len.toNat = bytesAt mem' p' len.toNat →
    f mem p len = f' mem' p' len

theorem agree_sha1 (c c' : HashMachine) :
    AgreeOnKeys (lhiHashSha1 c.w c.sha1Buffer) (lhiHashSha1 c'.w c'.sha1Buffer) := by
  intro mem mem' p p' len h
  rw [lhiHashSha1_eq c.width c.length_sha1Buffer, lhiHashSha1_eq c'.width c'.length_sha1Buffer, h]

theorem agree_skein (c c' : HashMachine) :
    AgreeOnKeys (lhiHashSkein256 c.skeinBuffer) (lhiHashSkein256 c'.skeinBuffer) := by
  intro mem mem' p p' len h
  rw [lhiHashSkein256_eq c.length_skeinBuffer, lhiHashSkein256_eq c'.length_skeinBuffer,
    bytesAt_congr_le (Nat.mod_le _ _) h]

theorem readsKey_cube : ReadsKey lhiHashCube := by
  intro mem mem' p p' len h
  rw [lhiHashCube_eq, lhiHashCube_eq, bytesAt_congr_le (Nat.mod_le _ _) h]

/-- The tables of two machines agree, function by function. -/
theorem lhiHashfuncMap_agree (c c' : HashMachine) :
    List.Forall₂ (fun e e' => e.1 = e'.1 ∧ AgreeOnKeys e.2 e'.2) (lhiHashfuncMap c)
      (lhiHashfuncMap c') := by
  have hbyte {α : Type} (f : α → UInt8 → α) (a : α) (g : α → UInt32) :
      AgreeOnKeys (fun mem p len => g (eachByte mem f p len.toNat a))
        (fun mem p len => g (eachByte mem f p len.toNat a)) := readsKey_eachByte f a g
  refine .cons ⟨rfl, hbyte _ _ id⟩ (.cons ⟨rfl, fun _ _ _ _ _ _ => rfl⟩ (.cons ⟨rfl, hbyte _ _ id⟩
    (.cons ⟨rfl, hbyte _ _ id⟩ (.cons ⟨rfl, readsKey_hsieh⟩ (.cons ⟨rfl, readsKey_jenkins2⟩
    (.cons ⟨rfl, readsKey_of_hash lhiHashJenkins3_eq_hash⟩ (.cons ⟨rfl, hbyte _ _ id⟩
    (.cons ⟨rfl, hbyte _ _ id⟩ (.cons ⟨rfl, hbyte _ _ id⟩ (.cons ⟨rfl, hbyte _ _ id⟩
    (.cons ⟨rfl, hbyte _ _ Prod.snd⟩ (.cons ⟨rfl, agree_sha1 c c'⟩
    (.cons ⟨rfl, readsKey_of_hash lhiHashMurmur_eq_hash⟩ (.cons ⟨rfl, readsKey_cube⟩
    (.cons ⟨rfl, agree_skein c c'⟩ .nil)))))))))))))))

/-- What the loop finds in a table that has each number once. -/
theorem hashAlgLoop_of_agree {l l' : List (HashAlg × HashCode)} {alg : HashAlg} {i : Nat}
    (h : List.Forall₂ (fun e e' => e.1 = e'.1 ∧ AgreeOnKeys e.2 e'.2) l l')
    (hself : ∀ e ∈ l, ReadsKey e.2) (hnd : (l.map Prod.fst).Nodup) (hmem : alg ∈ l.map Prod.fst) :
    ∃ f f', hashAlgLoop alg l i = some f ∧ hashAlgLoop alg l' i = some f' ∧ f.addr = f'.addr ∧
      ∀ key : Key, f.hash key = f'.hash key ∧
        ∀ hashfunc, (alg, hashfunc) ∈ l → ∀ mem p, key.LiesAt mem p →
          hashfunc mem p key.keylen = f.hash key := by
  induction h generalizing i with
  | nil => simp at hmem
  | @cons e e' l l' he hl ih =>
    obtain ⟨no, code⟩ := e
    obtain ⟨no', code'⟩ := e'
    obtain ⟨rfl, hagree⟩ := he
    rw [List.map_cons, List.nodup_cons] at hnd
    rw [hashAlgLoop, hashAlgLoop]
    by_cases halg : alg = no
    · subst halg
      rw [if_pos rfl, if_pos rfl]
      refine ⟨code.func i, code'.func i, rfl, rfl, rfl, fun key => ⟨?_, ?_⟩⟩
      · exact hagree _ _ _ _ _ rfl
      · intro hashfunc hfunc mem p hlies
        rcases List.mem_cons.mp hfunc with heq | hrest
        · have hcode : hashfunc = code := (Prod.ext_iff.mp heq).2
          rw [hcode, (hself _ List.mem_cons_self).hash_eq hlies]
        · exact (hnd.1 (List.mem_map.mpr ⟨_, hrest, rfl⟩)).elim
    · rw [if_neg halg, if_neg halg]
      have hmem : alg ∈ l.map Prod.fst := (List.mem_cons.mp hmem).resolve_left halg
      obtain ⟨f, f', hf, hf', haddr, hall⟩ := ih (i := i + 1)
        (fun e he => hself e (List.mem_cons_of_mem _ he)) hnd.2 hmem
      refine ⟨f, f', hf, hf', haddr, fun key => ⟨(hall key).1, fun hashfunc hfunc => ?_⟩⟩
      rcases List.mem_cons.mp hfunc with heq | hrest
      · exact (halg (Prod.ext_iff.mp heq).1).elim
      · exact (hall key).2 hashfunc hrest

theorem readsKey_lhiHashfuncMap (c : HashMachine) : ∀ e ∈ lhiHashfuncMap c, ReadsKey e.2 := by
  intro e he
  obtain ⟨i, hi, rfl⟩ := List.getElem_of_mem he
  exact ((lhiHashfuncMap_agree c c).get hi hi).2

/-- Every hash function but `__HI_HASH_MAX` is found, and it gives a key the same value on every
machine and at every address. -/
theorem hash_alg_portable (c c' : HashMachine) {alg : HashAlg} (h : alg ≠ .max) :
    ∃ f f', hashAlgLoop alg (lhiHashfuncMap c) 0 = some f ∧
      hashAlgLoop alg (lhiHashfuncMap c') 0 = some f' ∧ f.addr = f'.addr ∧
      ∀ key : Key, f.hash key = f'.hash key ∧
        ∀ hashfunc, (alg, hashfunc) ∈ lhiHashfuncMap c → ∀ mem p, key.LiesAt mem p →
          hashfunc mem p key.keylen = f.hash key := by
  have hkeys : (lhiHashfuncMap c).map Prod.fst = [.djb2, .dumb1, .elf, .goulburn, .hsieh, .jenkins2,
      .jenkins3, .phong, .torek, .xor, .korzendorfer1, .korzendorfer2, .sha1, .murmur, .cube,
      .skein256] := rfl
  refine hashAlgLoop_of_agree (lhiHashfuncMap_agree c c') (readsKey_lhiHashfuncMap c) ?_ ?_
  · rw [hkeys]
    decide
  · rw [hkeys]
    cases alg <;> first | exact (h rfl).elim | decide

/-- A machine with 64-bit words whose stack is clear. -/
def clearMachine : HashMachine :=
  ⟨64, by decide, List.replicate 64 0, rfl, List.replicate 32 0, rfl⟩

/-- A machine with 32-bit words that finds other bytes on its stack. -/
def dirtyMachine : HashMachine :=
  ⟨32, by decide, List.replicate 64 0xFF, rfl, List.replicate 32 0xFF, rfl⟩

theorem hash_alg_portable_sha1 :
    ∃ f f', hashAlgLoop .sha1 (lhiHashfuncMap clearMachine) 0 = some f ∧
      hashAlgLoop .sha1 (lhiHashfuncMap dirtyMachine) 0 = some f' ∧
      f.hash ⟨[97, 98, 99], by decide⟩ = f'.hash ⟨[97, 98, 99], by decide⟩ := by
  obtain ⟨f, f', hf, hf', -, hall⟩ := hash_alg_portable clearMachine dirtyMachine
    (show HashAlg.sha1 ≠ .max by decide)
  exact ⟨f, f', hf, hf', (hall _).1⟩

/-! ## Long keys -/

/-- The length of a key goes through an `int` in `lhi_hash_sha1`, and its bits are counted with 32
bits in the two others. -/
theorem long_keys_truncated (c : HashMachine) (mem : Nat → UInt8) (p : Nat) (len : UInt32) :
    (2 ^ 31 ≤ len.toNat → lhiHashSha1 c.w c.sha1Buffer mem p len =
      lhiHashSha1 c.w c.sha1Buffer mem p 0) ∧
    lhiHashCube mem p len = lhiHashCube mem p (UInt32.ofNat (len.toNat % 2 ^ 29)) ∧
    lhiHashSkein256 c.skeinBuffer mem p len =
      lhiHashSkein256 c.skeinBuffer mem p (UInt32.ofNat (len.toNat % 2 ^ 29)) := by
  have hlow : (UInt32.ofNat (len.toNat % 2 ^ 29)).toNat = len.toNat % 2 ^ 29 := by
    rw [UInt32.toNat_ofNat']
    omega
  refine ⟨fun hlen => ?_, ?_, ?_⟩
  · rw [lhiHashSha1_eq c.width c.length_sha1Buffer, lhiHashSha1_eq c.width c.length_sha1Buffer,
      if_neg (Nat.not_lt.mpr hlen)]
    rfl
  · rw [lhiHashCube_eq, lhiHashCube_eq, hlow, Nat.mod_mod]
  · rw [lhiHashSkein256_eq c.length_skeinBuffer, lhiHashSkein256_eq c.length_skeinBuffer, hlow,
      Nat.mod_mod]

/-- Of a key of `2 ^ 31 + 5` bytes one function reads nothing and the other two the first five. -/
theorem long_keys_truncated_five :
    lhiHashSha1 clearMachine.w clearMachine.sha1Buffer UInt8.ofNat 0 0x80000005 =
      lhiHashSha1 clearMachine.w clearMachine.sha1Buffer UInt8.ofNat 0 0 ∧
    lhiHashCube UInt8.ofNat 0 0x80000005 = lhiHashCube UInt8.ofNat 0 5 ∧
    lhiHashSkein256 clearMachine.skeinBuffer UInt8.ofNat 0 0x80000005 =
      lhiHashSkein256 clearMachine.skeinBuffer UInt8.ofNat 0 5 := by
  obtain ⟨hsha1, hrest⟩ := long_keys_truncated clearMachine UInt8.ofNat 0 0x80000005
  exact ⟨hsha1 (by decide), hrest⟩

end Hashish
