import Hashish.Lib.LittleEndian
import Mathlib.Data.Nat.Digits.Defs
import Mathlib.Data.Nat.ModEq
import Mathlib.Tactic.Ring

/-!
# Hash functions that read byte after byte

The functions of `hash_func.c` and `hash_func_goulburn.c`, which take one byte at a time, and those
of `hash_func_hsieh.c` and `hash_func_jenkins2.c`, which take four or twelve. They read the key from
a memory at an address.

* `polynomial_hashes`: five of them are polynomials in the bytes, modulo `2 ^ 32`.
* `lhiHashElf_eq_abi`: `lhi_hash_elf` is the hash of the ELF ABI, and is below `2 ^ 28`.
-/

namespace Hashish

open Hashish.Lib

/-- Go on with each of `n` bytes from the address `key` on. -/
def eachByte {α : Type} (mem : Nat → UInt8) (f : α → UInt8 → α) : Nat → Nat → α → α
  | _, 0, a => a
  | key, n + 1, a => eachByte mem f (key + 1) n (f a (mem key))

theorem eachByte_eq {α : Type} {mem : Nat → UInt8} {f : α → UInt8 → α} {key n : Nat} {a : α} :
    eachByte mem f key n a = (bytesAt mem key n).foldl f a := by
  induction n generalizing key a with
  | zero => rfl
  | succ n ih => rw [eachByte, ih, bytesAt, List.foldl_cons]

section Memory

variable (mem : Nat → UInt8)

/-! ## `hash_func.c` -/

/-- The body of the loop of `lhi_hash_elf`. -/
def elfByte (hash : UInt32) (c : UInt8) : UInt32 :=
  let hash := hash <<< 4 + c.toUInt32
  let x := hash &&& 0xF0000000
  if x ≠ 0 then
    let hash := hash ^^^ x >>> 24
    hash ^^^ x
  else hash

/-- `lhi_hash_elf`. -/
def lhiHashElf (key : Nat) (len : UInt32) : UInt32 := eachByte mem elfByte key len.toNat 0

/-- `lhi_hash_torek`. -/
def lhiHashTorek (key : Nat) (len : UInt32) : UInt32 :=
  eachByte mem (fun hash c => hash * 33 + c.toUInt32) key len.toNat 0

/-- `lhi_hash_phong`. -/
def lhiHashPhong (key : Nat) (len : UInt32) : UInt32 :=
  eachByte mem (fun hash c => hash * 129 + c.toUInt32 + 987654321) key len.toNat 0

/-- `lhi_hash_kr`. -/
def lhiHashKr (key : Nat) (len : UInt32) : UInt32 :=
  eachByte mem (fun hash c => hash + c.toUInt32) key len.toNat 0

/-- `lhi_hash_sdbm`. -/
def lhiHashSdbm (key : Nat) (len : UInt32) : UInt32 :=
  eachByte mem (fun hash c => c.toUInt32 + hash <<< 6 + hash <<< 16 - hash) key len.toNat 0

/-- `lhi_hash_djb2`. -/
def lhiHashDjb2 (key : Nat) (len : UInt32) : UInt32 :=
  eachByte mem (fun hash c => hash <<< 5 + hash + c.toUInt32) key len.toNat 5381

/-- `lhi_hash_korzendorfer1`. -/
def lhiHashKorzendorfer1 (key : Nat) (len : UInt32) : UInt32 :=
  eachByte mem (fun hash c => hash + c.toUInt32) key len.toNat 0

/-- `lhi_hash_korzendorfer2`: the variables `size` and `hash` of its loop. -/
def lhiHashKorzendorfer2 (key : Nat) (len : UInt32) : UInt32 :=
  (eachByte mem (fun (s : UInt32 × UInt32) c => (s.1 + 1, s.2 + c.toUInt32 * s.1)) key len.toNat
    (1, 0)).2

/-- `lhi_hash_xor`. -/
def lhiHashXor (key : Nat) (len : UInt32) : UInt32 :=
  eachByte mem (fun hash c => hash ^^^ c.toUInt32) key len.toNat 0

/-! ## `hash_func_goulburn.c` -/

def gTable0 : Array UInt32 :=
  #[4143812366, 2806512183, 4212398656, 393834663, 3943187971, 847901099, 3746904015,
    2990585247, 4243977488, 4075301976, 2737181671, 2429701352, 4196558752, 3152011060,
    1432515895, 204108242, 1180540305, 922583281, 1734842702, 1453807349, 507756934, 1553886700,
    2005976083, 3346025117, 97642817, 2510760451, 4103916440, 3222467334, 1312447049, 522841194,
    3955607179, 3028936967, 2763655970, 3033075496, 1935362065, 512912210, 2660383701,
    1652921526, 260485165, 141882627, 2895806269, 804034013, 1356707616, 3942447612, 2875374199,
    81028672, 1055595160, 2755907176, 2880512448, 1232977841, 3719796487, 2940441976,
    3739585976, 168332576, 1318372270, 3173546601, 3992298512, 3785690335, 3667530757,
    3101895251, 2789438017, 3213463724, 3067100319, 2554433152, 794184286, 2599814956,
    1251486151, 4214997752, 690900134, 323888098, 1537487787, 1155362310, 1826165850,
    2358083425, 2957662097, 2514517438, 1828367703, 3847031274, 2308450901, 955547506,
    1037823031, 2922505570, 2544914051, 2572931499, 442837508, 1873354958, 2004376537, 25413657,
    3560636876, 1768043132, 2870782748, 1031556958, 715180405, 201079975, 4116730284,
    2748714587, 1091411202, 33354499, 1931487277, 1039106939, 3327011403, 396608379, 3447523131,
    301432924, 3180185526, 1780290520, 3909968679, 2398211959, 3704875308, 66082280, 601805180,
    3226323057, 3284786200, 2282257088, 700775591, 3528928994, 1601645543, 120115228, 568698020,
    178214456, 41846783, 897656032, 3309570546, 2624714322, 2542948622, 1168171675, 2460933760,
    93808223, 2384991231, 4268721795, 4001720080, 1516739672, 4111847489, 810915309, 1238071781,
    935043360, 2020231594, 37717498, 3603218947, 1534593867, 2819275526, 1965883441, 674162751,
    128087286, 4138356188, 543626850, 1355906380, 3565721429, 1142978716, 1614752605,
    1624389156, 3363454971, 2029311310, 2249603714, 3448236784, 1764058505, 2198836711,
    3481576182, 3168665556, 3834682664, 1979945243, 3456525349, 2721891322, 1099639387,
    1528675965, 3069012165, 1807951214, 1901014398, 2805656341, 3321210152, 2317543573,
    1015607418, 178584554, 4020226276, 492648819, 97778844, 4134244261, 1389599433, 331211243,
    3769684011, 2036127367, 3174548433, 3241354897, 2570869934, 3071842004, 1972073698,
    48467379, 1015444026, 3126762609, 1104264591, 3096375666, 1380392409, 684368280, 1493310388,
    2109527660, 3034364089, 3168522906, 3042350939, 3696929834, 3410250713, 3726870750,
    3357455860, 1816295563, 2678332086, 26178399, 614899533, 2248041911, 1431155883, 1184971826,
    3711847923, 2744489682, 168580352, 694400736, 2659092308, 811197288, 1093111228, 824677015,
    2041709752, 1650020171, 2344240270, 3773698958, 3393428365, 3498636527, 556541408,
    1883820721, 3249806350, 3635420446, 1661145756, 3087642385, 1620143845, 3852949019,
    1054565053, 3574021829, 2466085457, 2078148836, 460565767, 4097474724, 1381665351,
    1652238922, 2200252397, 3726797486, 4001080204, 259576503, 567653141, 325219513, 1227314237,
    3191441965, 1433728871, 4198425173, 2908977223, 3757065246, 294312130, 4136006097,
    3409363054, 2112383431, 1177366649]

def gTable1 : Array UInt32 :=
  #[826524031, 360568984, 3001046685, 1511935255, 1287825396, 3167385669, 1488463483,
    4077470910, 1360843071, 986771770, 2307292828, 3845679814, 1429883439, 1990257475,
    4087625806, 1700033651, 1388994450, 935547107, 3237786789, 644530675, 2274037095, 888755779,
    3020158166, 2136355264, 2558959443, 1751931693, 2325730565, 3029134627, 668542860,
    2140243729, 2384660990, 666440934, 842610975, 1563602260, 1429103271, 899918690, 3441536151,
    4078621296, 1527765522, 4191433361, 222526771, 309447417, 2035245353, 3730203536,
    3330019758, 876252573, 2545027471, 453932528, 282738293, 1826993794, 1569532013, 543681326,
    3097574376, 2336551794, 1563241416, 1127019882, 3088670038, 2766122176, 3706267663,
    1110947226, 2608363541, 3166834418, 1310161541, 755904436, 2922000163, 3815555181,
    1578365408, 3137960721, 3254556244, 4287631844, 750375141, 1481489491, 1903967768,
    3684774106, 765971482, 3225162750, 2946561128, 1920278401, 1803486497, 4166913456,
    1855615192, 1934651772, 1736560291, 2101779280, 3560837687, 3004438879, 804667617,
    2969326308, 3118017313, 3090405800, 566615197, 2451279063, 4029572038, 2612593078,
    3831703462, 914594646, 2873305199, 2860901605, 3296630085, 1273702937, 2852911938,
    1003268745, 1387783190, 159227777, 2211994285, 28095103, 3659848176, 3976935977, 3301276082,
    2641346573, 651238838, 2264520966, 1484747269, 3016251036, 3857206301, 91952846, 1662449304,
    2028491746, 1613452911, 2409055848, 1453868667, 4146146473, 1646176015, 3769580099,
    3171524988, 2980516679, 828895558, 3384493282]

/-- The body of the loop of `lhi_hash_goulburn`. -/
def goulburnByte (h : UInt32) (c : UInt8) : UInt32 :=
  let h := h + gTable0.getD c.toNat 0
  let h := h ^^^ (h <<< 3 ^^^ h >>> 29)
  let h := h + gTable1.getD (h >>> 25).toNat 0
  let h := h ^^^ (h <<< 14 ^^^ h >>> 18)
  h + 1783936964

/-- `lhi_hash_goulburn`. -/
def lhiHashGoulburn (cp : Nat) (len : UInt32) : UInt32 := eachByte mem goulburnByte cp len.toNat 0

/-! ## `hash_func_hsieh.c` -/

/-- The macro `get16bits`. -/
def get16bits (d : Nat) : UInt32 := (mem (d + 1)).toUInt32 <<< 8 + (mem d).toUInt32

/-- The main loop of `HsiehSuperFastHash`, with the address that it leaves `data` at. -/
def hsiehLoop : Nat → Nat → UInt32 → Nat × UInt32
  | 0, data, hash => (data, hash)
  | len + 1, data, hash =>
    let hash := hash + get16bits mem data
    let tmp := get16bits mem (data + 2) <<< 11 ^^^ hash
    let hash := hash <<< 16 ^^^ tmp
    let hash := hash + hash >>> 11
    hsiehLoop len (data + 4) hash

/-- The end cases of `HsiehSuperFastHash`. -/
def hsiehEnd (data : Nat) (hash : UInt32) : Nat → UInt32
  | 3 =>
    let hash := hash + get16bits mem data
    let hash := hash ^^^ hash <<< 16
    let hash := hash ^^^ (mem (data + 2)).toUInt32 <<< 18
    hash + hash >>> 11
  | 2 =>
    let hash := hash + get16bits mem data
    let hash := hash ^^^ hash <<< 11
    hash + hash >>> 17
  | 1 =>
    let hash := hash + (mem data).toUInt32
    let hash := hash ^^^ hash <<< 10
    hash + hash >>> 1
  | _ => hash

/-- The avalanche at the end of `HsiehSuperFastHash`. -/
def hsiehAvalanche (hash : UInt32) : UInt32 :=
  let hash := hash ^^^ hash <<< 3
  let hash := hash + hash >>> 5
  let hash := hash ^^^ hash <<< 4
  let hash := hash + hash >>> 17
  let hash := hash ^^^ hash <<< 25
  hash + hash >>> 6

/-- `HsiehSuperFastHash`. -/
def hsiehSuperFastHash (data : Nat) (len hash : UInt32) : UInt32 :=
  let rem := len.toNat % 4
  let (data, hash) := hsiehLoop mem (len.toNat / 4) data hash
  hsiehAvalanche (hsiehEnd mem data hash rem)

/-- `lhi_hash_hsieh`. -/
def lhiHashHsieh (data : Nat) (len : UInt32) : UInt32 := hsiehSuperFastHash mem data len len

/-! ## `hash_func_jenkins2.c` -/

/-- The macro `__jhash_mix`. -/
def jhashMix (a b c : UInt32) : UInt32 × UInt32 × UInt32 :=
  let a := (a - b - c) ^^^ c >>> 13
  let b := (b - c - a) ^^^ a <<< 8
  let c := (c - a - b) ^^^ b >>> 13
  let a := (a - b - c) ^^^ c >>> 12
  let b := (b - c - a) ^^^ a <<< 16
  let c := (c - a - b) ^^^ b >>> 5
  let a := (a - b - c) ^^^ c >>> 3
  let b := (b - c - a) ^^^ a <<< 10
  let c := (c - a - b) ^^^ b >>> 15
  (a, b, c)

/-- A word of the key, byte by byte. -/
def jhashWord (k : Nat) : UInt32 :=
  (mem k).toUInt32 + (mem (k + 1)).toUInt32 <<< 8 + (mem (k + 2)).toUInt32 <<< 16 +
    (mem (k + 3)).toUInt32 <<< 24

/-- The loop of `jenkins_hash` over blocks of twelve bytes. It leaves `len`, `k`, `a`, `b` and `c`. -/
def jenkinsLoop : Nat → Nat → UInt32 → UInt32 → UInt32 → Nat × Nat × UInt32 × UInt32 × UInt32
  | len + 12, k, a, b, c =>
    let (a, b, c) := jhashMix (a + jhashWord mem k) (b + jhashWord mem (k + 4))
      (c + jhashWord mem (k + 8))
    jenkinsLoop len (k + 12) a b c
  | len, k, a, b, c => (len, k, a, b, c)

/-- The byte `i` of the last block, shifted to its place, when the block has it. -/
def jenkinsCase (k len i : Nat) (shift : UInt32) : UInt32 :=
  if i < len then (mem (k + i)).toUInt32 <<< shift else 0

/-- The `switch` of `jenkins_hash`. Its cases fall through from `len` downwards. -/
def jenkinsSwitch (len k : Nat) (a b c : UInt32) : UInt32 × UInt32 × UInt32 :=
  let c := c + jenkinsCase mem k len 10 24
  let c := c + jenkinsCase mem k len 9 16
  let c := c + jenkinsCase mem k len 8 8
  let b := b + jenkinsCase mem k len 7 24
  let b := b + jenkinsCase mem k len 6 16
  let b := b + jenkinsCase mem k len 5 8
  let b := b + jenkinsCase mem k len 4 0
  let a := a + jenkinsCase mem k len 3 24
  let a := a + jenkinsCase mem k len 2 16
  let a := a + jenkinsCase mem k len 1 8
  let a := a + jenkinsCase mem k len 0 0
  (a, b, c)

/-- `jenkins_hash`. -/
def jenkinsHash (k : Nat) (length initval : UInt32) : UInt32 :=
  let (len, k, a, b, c) := jenkinsLoop mem length.toNat k 0x9e3779b9 0x9e3779b9 initval
  let c := c + length
  let (a, b, c) := jenkinsSwitch mem len k a b c
  (jhashMix a b c).2.2

/-- `lhi_hash_jenkins2`. -/
def lhiHashJenkins2 (data : Nat) (len : UInt32) : UInt32 := jenkinsHash mem data len 0

end Memory

/-! ## Reading the key and nothing else -/

/-- The value depends on the bytes of the key, and not on where they lie or what is around them. -/
def ReadsKey (f : (Nat → UInt8) → Nat → UInt32 → UInt32) : Prop :=
  ∀ mem mem' p p' (len : UInt32), bytesAt mem p len.toNat = bytesAt mem' p' len.toNat →
    f mem p len = f mem' p' len

theorem bytesAt_eq_iff {mem mem' : Nat → UInt8} {p p' n : Nat} :
    bytesAt mem p n = bytesAt mem' p' n ↔ ∀ i < n, mem (p + i) = mem' (p' + i) := by
  induction n generalizing p p' with
  | zero => simp [bytesAt]
  | succ n ih =>
    rw [bytesAt, bytesAt, List.cons_eq_cons, ih]
    constructor
    · rintro ⟨hhead, htail⟩ i hi
      cases i with
      | zero => exact hhead
      | succ i => simpa [Nat.add_assoc, Nat.add_comm 1] using htail i (by omega)
    · intro h
      refine ⟨h 0 (Nat.succ_pos n), fun i hi => ?_⟩
      simpa [Nat.add_assoc, Nat.add_comm 1] using h (i + 1) (by omega)

/-- The number of bits of a key, as the code computes it. -/
theorem toNat_mul_eight (len : UInt32) : (len * 8).toNat = 8 * (len.toNat % 2 ^ 29) := by
  have hmul : (len * 8).toNat = len.toNat * 8 % 2 ^ 32 := UInt32.toNat_mul _ _
  omega

theorem readsKey_eachByte {α : Type} (f : α → UInt8 → α) (a : α) (g : α → UInt32) :
    ReadsKey fun mem p len => g (eachByte mem f p len.toNat a) := by
  intro mem mem' p p' len h
  dsimp only
  rw [eachByte_eq, eachByte_eq, h]

section Blocks

variable {mem mem' : Nat → UInt8} {p p' n : Nat}

theorem get16bits_congr (h : ∀ i < n, mem (p + i) = mem' (p' + i)) {i : Nat} (hi : i + 1 < n) :
    get16bits mem (p + i) = get16bits mem' (p' + i) := by
  rw [get16bits, get16bits, h i (by omega), Nat.add_assoc, Nat.add_assoc, h (i + 1) hi]

theorem hsiehLoop_congr (hash : UInt32) (h : ∀ i < 4 * n, mem (p + i) = mem' (p' + i)) :
    hsiehLoop mem n p hash = (p + 4 * n, (hsiehLoop mem' n p' hash).2) ∧
      (hsiehLoop mem' n p' hash).1 = p' + 4 * n := by
  induction n generalizing p p' hash with
  | zero => exact ⟨rfl, rfl⟩
  | succ n ih =>
    have h₀ := get16bits_congr h (i := 0) (by omega)
    have h₂ := get16bits_congr h (i := 2) (by omega)
    rw [Nat.add_zero, Nat.add_zero] at h₀
    simp only [hsiehLoop, h₀, h₂]
    have hrest : ∀ i < 4 * n, mem (p + 4 + i) = mem' (p' + 4 + i) := fun i hi => by
      rw [Nat.add_assoc, Nat.add_assoc]
      exact h (4 + i) (by omega)
    rw [(ih _ hrest).1, (ih _ hrest).2]
    exact ⟨by rw [Nat.mul_succ]; congr 1; omega, by omega⟩

theorem hsiehEnd_congr {hash : UInt32} (hn : n < 4) (h : ∀ i < n, mem (p + i) = mem' (p' + i)) :
    hsiehEnd mem p hash n = hsiehEnd mem' p' hash n := by
  rcases n with _ | _ | _ | _ | n
  · rfl
  · simp only [hsiehEnd, show mem p = mem' p' from h 0 (by omega)]
  · have hget : get16bits mem p = get16bits mem' p' := get16bits_congr h (i := 0) (by omega)
    simp only [hsiehEnd, hget]
  · have hget : get16bits mem p = get16bits mem' p' := get16bits_congr h (i := 0) (by omega)
    simp only [hsiehEnd, hget, h 2 (by omega)]
  · omega

theorem jhashWord_congr (h : ∀ i < n, mem (p + i) = mem' (p' + i)) {i : Nat} (hi : i + 3 < n) :
    jhashWord mem (p + i) = jhashWord mem' (p' + i) := by
  simp only [jhashWord, Nat.add_assoc, h i (by omega), h (i + 1) (by omega), h (i + 2) (by omega),
    h (i + 3) hi]

theorem jenkinsCase_congr (h : ∀ i < n, mem (p + i) = mem' (p' + i)) (i : Nat) (shift : UInt32) :
    jenkinsCase mem p n i shift = jenkinsCase mem' p' n i shift := by
  unfold jenkinsCase
  split
  · rename_i hi
    rw [h i hi]
  · rfl

theorem jenkinsSwitch_congr {a b c : UInt32} (h : ∀ i < n, mem (p + i) = mem' (p' + i)) :
    jenkinsSwitch mem n p a b c = jenkinsSwitch mem' n p' a b c := by
  simp only [jenkinsSwitch, jenkinsCase_congr h]

end Blocks

theorem readsKey_hsieh : ReadsKey lhiHashHsieh := by
  intro mem mem' p p' len h
  have hread := bytesAt_eq_iff.mp h
  have hsplit := Nat.div_add_mod len.toNat 4
  have hloop := hsiehLoop_congr len (n := len.toNat / 4)
    fun i hi => hread i (by omega)
  simp only [lhiHashHsieh, hsiehSuperFastHash, hloop.1, hloop.2]
  refine congrArg hsiehAvalanche (hsiehEnd_congr (Nat.mod_lt _ (by decide)) fun i hi => ?_)
  rw [Nat.add_assoc, Nat.add_assoc]
  exact hread _ (by omega)

theorem jenkinsLoop_congr {mem mem' : Nat → UInt8} {p p' n : Nat} {a b c : UInt32}
    (h : ∀ i < n, mem (p + i) = mem' (p' + i)) :
    ∃ len q q' r, jenkinsLoop mem n p a b c = (len, q, r) ∧
      jenkinsLoop mem' n p' a b c = (len, q', r) ∧ ∀ i < len, mem (q + i) = mem' (q' + i) := by
  fun_induction jenkinsLoop mem n p a b c generalizing p' with
  | case1 n p a b c a' b' c' hmix ih =>
    have h₀ : jhashWord mem p = jhashWord mem' p' := jhashWord_congr h (i := 0) (by omega)
    rw [h₀, jhashWord_congr h (i := 4) (by omega), jhashWord_congr h (i := 8) (by omega)] at hmix
    have hnext : ∀ i < n, mem (p + 12 + i) = mem' (p' + 12 + i) := fun i hi => by
      rw [Nat.add_assoc, Nat.add_assoc]
      exact h (12 + i) (by omega)
    obtain ⟨len, q, q', r, hq, hq', hread⟩ := ih hnext
    refine ⟨len, q, q', r, hq, ?_, hread⟩
    rw [jenkinsLoop, hmix]
    exact hq'
  | case2 n p a b c hless =>
    refine ⟨n, p, p', (a, b, c), rfl, ?_, h⟩
    unfold jenkinsLoop
    split
    · exact (hless _ rfl).elim
    · rfl

theorem readsKey_jenkins2 : ReadsKey lhiHashJenkins2 := by
  intro mem mem' p p' len h
  obtain ⟨n, q, q', ⟨a, b, c⟩, hloop, hloop', hread⟩ :=
    jenkinsLoop_congr (a := 0x9e3779b9) (b := 0x9e3779b9) (c := 0) (bytesAt_eq_iff.mp h)
  simp only [lhiHashJenkins2, jenkinsHash, hloop, hloop', jenkinsSwitch_congr hread]

/-! ## The hash of the ELF ABI -/

/-- The body of the loop as the ABI has it, with `h &= ~g`. -/
def elfAbiByte (hash : UInt32) (c : UInt8) : UInt32 :=
  let hash := hash <<< 4 + c.toUInt32
  let g := hash &&& 0xF0000000
  if g ≠ 0 then
    let hash := hash ^^^ g >>> 24
    hash &&& ~~~g
  else hash

theorem testBit_elfMask (i : Nat) : (0xF0000000).testBit i = decide (28 ≤ i ∧ i < 32) := by
  rw [show (0xF0000000 : Nat) = 2 ^ 28 * (2 ^ 4 - 1) from rfl, Nat.testBit_two_pow_mul,
    Nat.testBit_two_pow_sub_one, ← Bool.decide_and]
  exact decide_eq_decide.mpr (by omega)

section Elf

variable {hash : UInt32}

/-- The bits of `g` are those of `hash`, and shifting them away leaves them alone. -/
theorem testBit_elf (hash : UInt32) (i : Nat) :
    (hash &&& 0xF0000000).toNat.testBit i = (decide (28 ≤ i) && hash.toNat.testBit i) ∧
      (28 ≤ i → ((hash &&& 0xF0000000) >>> 24).toNat.testBit i = false) := by
  have hmask : (0xF0000000 : UInt32).toNat = 0xF0000000 := rfl
  have hx : ∀ i, (hash &&& 0xF0000000).toNat.testBit i =
      (decide (28 ≤ i) && hash.toNat.testBit i) := fun i => by
    rw [UInt32.toNat_and, Nat.testBit_and, hmask, testBit_elfMask]
    by_cases hi : i < 32
    · simp [hi, Bool.and_comm]
    · simp [Nat.testBit_lt_two_pow (hash.toNat_lt.trans_le (Nat.pow_le_pow_right (by decide)
        (Nat.not_lt.mp hi)))]
  refine ⟨hx i, fun hi => ?_⟩
  rw [UInt32.toNat_shiftRight, show (24 : UInt32).toNat % 32 = 24 from rfl, Nat.testBit_shiftRight,
    hx, Nat.testBit_lt_two_pow (hash.toNat_lt.trans_le (Nat.pow_le_pow_right (by decide)
      (by omega))), Bool.and_false]

/-- The bits of `g` are set in `hash`, so that flipping them takes them away. -/
theorem elfByte_eq_abi : elfByte = elfAbiByte := by
  funext hash c
  unfold elfByte elfAbiByte
  dsimp only
  generalize hash <<< 4 + c.toUInt32 = hash
  split
  · refine UInt32.toNat_inj.mp (Nat.eq_of_testBit_eq fun i => ?_)
    obtain ⟨hx, hhigh⟩ := testBit_elf hash i
    rw [UInt32.toNat_and (hash ^^^ _), UInt32.toNat_not, UInt32.toNat_xor, UInt32.toNat_xor,
      UInt32.size, Nat.testBit_xor, Nat.testBit_and, Nat.testBit_xor, Nat.sub_sub, Nat.add_comm 1,
      Nat.testBit_two_pow_sub_succ (UInt32.toNat_lt _), hx]
    by_cases hi : 28 ≤ i
    · rw [hhigh hi]
      by_cases hi' : i < 32
      · simp [hi, hi']
      · simp [hi', Nat.testBit_lt_two_pow (hash.toNat_lt.trans_le
          (Nat.pow_le_pow_right (by decide) (Nat.not_lt.mp hi')))]
    · simp [hi, show i < 32 by omega]
  · rfl

theorem elfByte_lt {c : UInt8} : elfByte hash c < 0x10000000 := by
  unfold elfByte
  dsimp only
  generalize hash <<< 4 + c.toUInt32 = hash
  have hclear : ∀ {h : UInt32}, (∀ i, 28 ≤ i → h.toNat.testBit i = false) → h < 0x10000000 :=
    fun hbits => UInt32.lt_iff_toNat_lt.mpr (Nat.lt_pow_two_of_testBit (n := 28) _ hbits)
  split
  · refine hclear fun i hi => ?_
    obtain ⟨hx, hhigh⟩ := testBit_elf hash i
    rw [UInt32.toNat_xor, UInt32.toNat_xor, Nat.testBit_xor, Nat.testBit_xor, hx, hhigh hi]
    simp [hi]
  · rename_i hzero
    refine hclear fun i hi => ?_
    have hx := (testBit_elf hash i).1
    rw [not_not.mp hzero] at hx
    simpa [hi] using hx.symm

end Elf

/-- `lhi_hash_elf` is the hash of the ABI, which leaves the four highest bits free. -/
theorem lhiHashElf_eq_abi {mem : Nat → UInt8} {key : Nat} {len : UInt32} :
    lhiHashElf mem key len = eachByte mem elfAbiByte key len.toNat 0 ∧
      lhiHashElf mem key len < 0x10000000 := by
  refine ⟨by rw [lhiHashElf, elfByte_eq_abi], ?_⟩
  rw [lhiHashElf, eachByte_eq]
  rcases List.eq_nil_or_concat (bytesAt mem key len.toNat) with h | ⟨bytes, c, h⟩
  · rw [h]
    decide
  · rw [h, List.concat_eq_append, List.foldl_concat]
    exact elfByte_lt

/-! ## Polynomials -/

/-- The value of a polynomial at `m`, modulo `2 ^ 32`: `s` comes before the bytes, to each of which
`a` is added. -/
def polyHash (m s a : Nat) (bytes : List UInt8) : Nat :=
  (s * m ^ bytes.length + Nat.ofDigits m (bytes.map fun c => c.toNat + a).reverse) % 2 ^ 32

theorem toNat_foldl_poly {m a s : UInt32} {bytes : List UInt8} :
    (bytes.foldl (fun hash c => hash * m + c.toUInt32 + a) s).toNat =
      polyHash m.toNat s.toNat a.toNat bytes := by
  induction bytes generalizing s with
  | nil => simp [polyHash]
  | cons c bytes ih =>
    rw [List.foldl_cons, ih, polyHash, polyHash, List.map_cons, List.reverse_cons,
      Nat.ofDigits_append, Nat.ofDigits_singleton, List.length_reverse, List.length_map,
      List.length_cons]
    have hstep : (s * m + c.toUInt32 + a).toNat ≡ s.toNat * m.toNat + (c.toNat + a.toNat)
        [MOD 2 ^ 32] := by
      rw [UInt32.toNat_add, UInt32.toNat_add, UInt32.toNat_mul, UInt8.toNat_toUInt32]
      simp [Nat.ModEq, Nat.add_assoc]
    calc _ ≡ (s.toNat * m.toNat + (c.toNat + a.toNat)) * m.toNat ^ bytes.length +
          Nat.ofDigits m.toNat (bytes.map fun c => c.toNat + a.toNat).reverse [MOD 2 ^ 32] :=
        (hstep.mul_right _).add_right _
      _ = _ := by ring

theorem shiftLeft_eq_mul {hash n : UInt32} (hn : n.toNat < 32) :
    hash <<< n = hash * UInt32.ofNat (2 ^ n.toNat) := by
  refine UInt32.toNat_inj.mp ?_
  rw [UInt32.toNat_shiftLeft, UInt32.toNat_mul, Nat.mod_eq_of_lt hn, Nat.shiftLeft_eq,
    UInt32.toNat_ofNat', Nat.mod_eq_of_lt (Nat.pow_lt_pow_right (by decide) hn)]

/-! The bodies of the loops, as steps of a polynomial. -/

theorem djb2Byte_eq : (fun (hash : UInt32) (c : UInt8) => hash <<< 5 + hash + c.toUInt32) =
    fun hash c => hash * 33 + c.toUInt32 + 0 := by
  funext hash c
  rw [shiftLeft_eq_mul (by decide), show UInt32.ofNat (2 ^ (5 : UInt32).toNat) = 32 from rfl]
  grind

theorem sdbmByte_eq : (fun (hash : UInt32) (c : UInt8) =>
    c.toUInt32 + hash <<< 6 + hash <<< 16 - hash) =
    fun hash c => hash * 65599 + c.toUInt32 + 0 := by
  funext hash c
  rw [shiftLeft_eq_mul (n := 6) (by decide), shiftLeft_eq_mul (n := 16) (by decide),
    show UInt32.ofNat (2 ^ (6 : UInt32).toNat) = 64 from rfl,
    show UInt32.ofNat (2 ^ (16 : UInt32).toNat) = 65536 from rfl]
  grind

theorem torekByte_eq : (fun (hash : UInt32) (c : UInt8) => hash * 33 + c.toUInt32) =
    fun hash c => hash * 33 + c.toUInt32 + 0 := by
  simp

theorem krByte_eq : (fun (hash : UInt32) (c : UInt8) => hash + c.toUInt32) =
    fun hash c => hash * 1 + c.toUInt32 + 0 := by
  simp

section Polynomials

variable {mem : Nat → UInt8} {key : Nat} {len : UInt32}

/-- Five of the functions evaluate the bytes as a polynomial modulo `2 ^ 32`. -/
theorem polynomial_hashes :
    (lhiHashTorek mem key len).toNat = polyHash 33 0 0 (bytesAt mem key len.toNat) ∧
    (lhiHashDjb2 mem key len).toNat = polyHash 33 5381 0 (bytesAt mem key len.toNat) ∧
    (lhiHashSdbm mem key len).toNat = polyHash 65599 0 0 (bytesAt mem key len.toNat) ∧
    (lhiHashPhong mem key len).toNat = polyHash 129 0 987654321 (bytesAt mem key len.toNat) ∧
    (lhiHashKr mem key len).toNat = polyHash 1 0 0 (bytesAt mem key len.toNat) := by
  simp only [lhiHashTorek, lhiHashDjb2, lhiHashSdbm, lhiHashPhong, lhiHashKr, eachByte_eq]
  rw [torekByte_eq, djb2Byte_eq, sdbmByte_eq, krByte_eq]
  exact ⟨toNat_foldl_poly, toNat_foldl_poly, toNat_foldl_poly, toNat_foldl_poly, toNat_foldl_poly⟩

end Polynomials

end Hashish
