import Niuchacz.Lib.Bytes
import Niuchacz.PacketAnalyze.Frame

namespace Niuchacz.PacketAnalyze

open Lib.Access Lib.Bytes

/-!
# What a frame is decoded to

The structures of `mapper.h` lie over the bytes of the frame: a field of two bytes has its low byte
first, and `be16toh` turns it round.  The payload is read through a `char *`, so that a byte from
128 on is negative when its digits are taken.

* `toNat_be16toh`, `leBytes_le32` — the fields as numbers and as bytes.
* `nibbles` — the two digits of a byte, also of a negative one.
* `foldl_payloadLoop` — what the assignments leave in `_payload`.
* `unhex_hexDigits` — the digits are read back.
* `mapFrame_decodes` — every field of a frame, and when there is none.
-/

variable {frame : ℕ → UInt8} {framelen : UInt64}

/-! ### Fields -/

/-- A high part and a low part below it do not overlap. -/
theorem or_shiftLeft {a b : ℕ} (hb : b < 2 ^ 8) : b ||| a <<< 8 = 256 * a + b := by
  rw [Nat.or_comm, ← Nat.shiftLeft_add_eq_or_of_lt hb, Nat.shiftLeft_eq]
  omega

/-- The value of two bytes, the lower one first. -/
theorem toNat_le16 (b₀ b₁ : UInt8) : (le16 b₀ b₁).toNat = 256 * b₁.toNat + b₀.toNat := by
  have h₁ := b₁.toNat_lt
  have hlt : b₁.toNat <<< 8 < 2 ^ 16 := by
    rw [Nat.shiftLeft_eq]
    omega
  rw [le16, UInt16.toNat_or, UInt16.toNat_shiftLeft, UInt8.toNat_toUInt16, UInt8.toNat_toUInt16]
  show b₀.toNat ||| b₁.toNat <<< 8 % 2 ^ 16 = _
  rw [Nat.mod_eq_of_lt hlt, or_shiftLeft b₀.toNat_lt]

/-- The first of two bytes is the high one. -/
theorem toNat_be16toh (b₀ b₁ : UInt8) :
    (be16toh (le16 b₀ b₁)).toNat = 256 * b₀.toNat + b₁.toNat := by
  have h₀ := b₀.toNat_lt
  have h₁ := b₁.toNat_lt
  rw [be16toh, UInt16.toNat_or, UInt16.toNat_shiftRight, UInt16.toNat_shiftLeft, toNat_le16]
  show (256 * b₁.toNat + b₀.toNat) >>> 8 ||| (256 * b₁.toNat + b₀.toNat) <<< 8 % 2 ^ 16 = _
  have hhigh : (256 * b₁.toNat + b₀.toNat) >>> 8 = b₁.toNat := by
    rw [Nat.shiftRight_eq_div_pow]
    omega
  have hlow : (256 * b₁.toNat + b₀.toNat) <<< 8 % 2 ^ 16 = b₀.toNat <<< 8 := by
    rw [Nat.shiftLeft_eq, Nat.shiftLeft_eq]
    omega
  rw [hhigh, hlow, or_shiftLeft h₁]

/-- The value of four bytes, the lowest one first. -/
theorem toNat_le32 (b₀ b₁ b₂ b₃ : UInt8) :
    (le32 b₀ b₁ b₂ b₃).toNat = leNat [b₀, b₁, b₂, b₃] := by
  have h₀ := b₀.toNat_lt
  have h₁ := b₁.toNat_lt
  have h₂ := b₂.toNat_lt
  have h₃ := b₃.toNat_lt
  -- no bit of a byte is shifted out
  have hshift : ∀ (b : UInt8) (k : ℕ), k ≤ 24 → b.toNat <<< k % 2 ^ 32 = b.toNat <<< k := by
    intro b k hk
    apply Nat.mod_eq_of_lt
    rw [Nat.shiftLeft_eq]
    calc b.toNat * 2 ^ k ≤ b.toNat * 2 ^ 24 :=
          Nat.mul_le_mul_left _ (Nat.pow_le_pow_right (by decide) hk)
      _ < 2 ^ 32 := by
        have := b.toNat_lt
        omega
  simp only [le32, UInt32.toNat_or, UInt32.toNat_shiftLeft, UInt8.toNat_toUInt32]
  show ((b₀.toNat ||| b₁.toNat <<< 8 % 2 ^ 32) ||| b₂.toNat <<< 16 % 2 ^ 32) |||
    b₃.toNat <<< 24 % 2 ^ 32 = _
  rw [hshift b₁ 8 (by decide), hshift b₂ 16 (by decide), hshift b₃ 24 (by decide),
    or_shiftLeft h₀]
  rw [Nat.or_comm _ (b₂.toNat <<< 16), ← Nat.shiftLeft_add_eq_or_of_lt (by omega),
    Nat.or_comm _ (b₃.toNat <<< 24), ← Nat.shiftLeft_add_eq_or_of_lt (by
      rw [Nat.shiftLeft_eq]
      omega)]
  simp only [Nat.shiftLeft_eq, leNat]
  omega

theorem leBytes_le32 (b₀ b₁ b₂ b₃ : UInt8) :
    leBytes 4 (le32 b₀ b₁ b₂ b₃).toNat = [b₀, b₁, b₂, b₃] := by
  rw [toNat_le32]
  exact leBytes_leNat [b₀, b₁, b₂, b₃]

/-! ### Digits -/

/-- The digits of a byte: `x >> 4` keeps the sign of a negative `x`, and the mask removes it. -/
theorem nibbles (b : UInt8) :
    (ofChar b >>> 4 &&& 0xf).toNatClampNeg = b.toNat / 16 ∧
      (ofChar b &&& 0xf).toNatClampNeg = b.toNat % 16 := by
  have hall : ∀ n : Fin 256, (ofChar (UInt8.ofFin n) >>> 4 &&& 0xf).toNatClampNeg = n / 16 ∧
      (ofChar (UInt8.ofFin n) &&& 0xf).toNatClampNeg = n % 16 := by decide +kernel
  exact hall b.toFin

/-- What a digit stands for, if it is `0` to `9` or `A` to `F`. -/
def unhexDigit (c : UInt8) : Option ℕ :=
  if 48 ≤ c.toNat ∧ c.toNat ≤ 57 then some (c.toNat - 48)
  else if 65 ≤ c.toNat ∧ c.toNat ≤ 70 then some (c.toNat - 55)
  else none

/-- The bytes that a string of upper-case digits stands for. -/
def unhex : Text → Option (List UInt8)
  | [] => some []
  | [_] => none
  | c :: d :: text => do
      let high ← unhexDigit c
      let low ← unhexDigit d
      let bytes ← unhex text
      return UInt8.ofNat (16 * high + low) :: bytes

/-- Every character of the table is read as its index. -/
theorem unhexDigit_gc_hexChars {n : ℕ} (hn : n < 16) :
    unhexDigit (gc_hexChars.getD n 0) = some n := by
  have hall : ∀ n : Fin 16, unhexDigit (gc_hexChars.getD n 0) = some n := by decide
  exact hall ⟨n, hn⟩

/-- The digits of some bytes. -/
def hexDigits (bytes : List UInt8) : Text :=
  bytes.flatMap fun b => [hexChar (ofChar b >>> 4), hexChar (ofChar b)]

@[simp] theorem hexDigits_nil : hexDigits [] = [] := rfl

@[simp] theorem hexDigits_cons (b : UInt8) (bytes : List UInt8) :
    hexDigits (b :: bytes) =
      hexChar (ofChar b >>> 4) :: hexChar (ofChar b) :: hexDigits bytes := rfl

/-- The first digit of a byte is read as its upper half. The sign of `char` does not matter, as the
    code masks it away. -/
theorem unhexDigit_high (b : UInt8) :
    unhexDigit (hexChar (ofChar b >>> 4)) = some (b.toNat / 16) := by
  have hb := b.toNat_lt
  rw [hexChar, (nibbles b).1]
  exact unhexDigit_gc_hexChars (by omega)

/-- The second digit is read as the lower half. -/
theorem unhexDigit_low (b : UInt8) : unhexDigit (hexChar (ofChar b)) = some (b.toNat % 16) := by
  rw [hexChar, (nibbles b).2]
  exact unhexDigit_gc_hexChars (Nat.mod_lt _ (by decide))

/-- **Round trip.**  Every byte is read back from its digits. -/
theorem unhex_hexDigits (bytes : List UInt8) : unhex (hexDigits bytes) = some bytes := by
  induction bytes with
  | nil => rfl
  | cons b bytes ih =>
    have hbyte : UInt8.ofNat (16 * (b.toNat / 16) + b.toNat % 16) = b := by
      rw [Nat.div_add_mod, UInt8.ofNat_toNat]
    rw [hexDigits_cons, unhex, unhexDigit_high, unhexDigit_low, ih]
    show some (UInt8.ofNat (16 * (b.toNat / 16) + b.toNat % 16) :: bytes) = _
    rw [hbyte]

/-- Two digits for each byte. -/
theorem length_hexDigits (bytes : List UInt8) : (hexDigits bytes).length = 2 * bytes.length := by
  induction bytes with
  | nil => rfl
  | cons b bytes ih =>
    simp only [hexDigits_cons, List.length_cons, ih]
    omega

/-- Each is the digit of something. -/
theorem exists_unhexDigit {bytes : List UInt8} {c : UInt8} (h : c ∈ hexDigits bytes) :
    ∃ n, unhexDigit c = some n := by
  obtain ⟨b, -, hc⟩ := List.mem_flatMap.mp h
  rcases List.mem_pair.mp hc with rfl | rfl
  · exact ⟨_, unhexDigit_high b⟩
  · exact ⟨_, unhexDigit_low b⟩

/-! ### The array -/

/-- **Run.**  The loop, with `pre` already written and zeros behind it. -/
theorem foldl_payloadLoop (frame : ℕ → UInt8) (payload left i : ℕ) (pre : List UInt8) {n : ℕ}
    (hn : 2 * left + 1 ≤ n) :
    (payloadLoop frame payload left i pre.length).value.foldl (fun l st => l.set st.1 st.2)
        (pre ++ List.replicate n 0) =
      pre ++ hexDigits ((List.range' (payload + i) left).map frame) ++
        List.replicate (n - 2 * left) 0 := by
  induction left generalizing i pre n with
  | zero =>
    obtain ⟨n, rfl⟩ : ∃ m, n = m + 1 := ⟨n - 1, by omega⟩
    simp [payloadLoop, List.replicate_succ]
  | succ left ih =>
    obtain ⟨n, rfl⟩ : ∃ m, n = m + 2 := ⟨n - 2, by omega⟩
    have hset : ∀ c d : UInt8, ((pre ++ List.replicate (n + 2) 0).set pre.length c).set
        (pre.length + 1) d = pre ++ [c, d] ++ List.replicate n 0 := by
      intro c d
      simp [List.replicate_succ]
    have hlength : ∀ c d : UInt8, pre.length + 2 = (pre ++ [c, d]).length := by simp
    have hsub : n + 2 - 2 * (left + 1) = n - 2 * left := by omega
    -- two elements more are written, and the rest of the loop is the induction hypothesis
    simp only [payloadLoop, value_bind, value_pure, value_read, List.foldl_cons]
    rw [hset, hlength, ih _ _ (by omega), hsub, List.range'_succ, List.map_cons, hexDigits_cons,
      ← Nat.add_assoc]
    simp

theorem toList_payloadArray (stores : List (ℕ × UInt8)) :
    (payloadArray stores).toList =
      stores.foldl (fun l st => l.set st.1 st.2) (List.replicate 33 0) := by
  have hfold : ∀ a : Vector UInt8 33,
      (stores.foldl (fun a st => a.setIfInBounds st.1 st.2) a).toList =
        stores.foldl (fun l st => l.set st.1 st.2) a.toList := by
    induction stores with
    | nil => exact fun _ => rfl
    | cons st stores ih =>
      intro a
      rw [List.foldl_cons, List.foldl_cons, ih, Vector.toList_setIfInBounds]
  rw [payloadArray, hfold, Vector.toList_replicate]

/-- The string ends with the first zero. -/
theorem takeWhile_hexDigits (bytes : List UInt8) (n : ℕ) :
    (hexDigits bytes ++ List.replicate n 0).takeWhile (· ≠ 0) = hexDigits bytes := by
  have hne : ∀ c ∈ hexDigits bytes, decide (c ≠ 0) = true := by
    intro c hc
    obtain ⟨m, hm⟩ := exists_unhexDigit hc
    refine decide_eq_true ?_
    rintro rfl
    cases hm
  rw [List.takeWhile_append_of_pos hne]
  cases n <;> simp [List.replicate_succ]

/-- `_payload` after the loop: the digits of the bytes that are read, and a 0 behind them. -/
theorem payloadArray_payloadLoop (frame : ℕ → UInt8) (payload : ℕ) {left : ℕ} (h : left ≤ 16) :
    (payloadArray (payloadLoop frame payload left 0 0).value).toList =
      hexDigits ((List.range' payload left).map frame) ++
        0 :: List.replicate (32 - 2 * left) 0 := by
  have hfold := foldl_payloadLoop frame payload left 0 [] (by omega : 2 * left + 1 ≤ 33)
  have hsucc : 33 - 2 * left = 32 - 2 * left + 1 := by omega
  rw [hsucc, List.replicate_succ] at hfold
  rw [toList_payloadArray]
  exact hfold

/-- The loop writes the digits of up to 16 bytes, and the array ends behind them. -/
theorem cString_payloadLoop (frame : ℕ → UInt8) (payload : ℕ) {left : ℕ} (h : left ≤ 16) :
    cString (payloadArray (payloadLoop frame payload left 0 0).value) =
      hexDigits ((List.range' payload left).map frame) := by
  rw [cString, payloadArray_payloadLoop frame payload h, ← List.replicate_succ, takeWhile_hexDigits]

/-- The payload is at most 32 digits, whatever the frame is. -/
theorem mapFrame_payload {results : MapperT} (h : (mapFrame frame framelen).value = some results) :
    results.payload.length ≤ 32 ∧ ∀ c ∈ results.payload, ∃ n, unhexDigit c = some n := by
  by_cases hshort : sizeIp frame < 20
  · rw [mapFrame_of_lt hshort] at h
    cases h
  · rw [mapFrame_of_le (Nat.le_of_not_lt hshort) framelen] at h
    obtain rfl := Option.some.inj h
    have hbound := toNat_payloadBound (sizeIp_le frame) framelen
    rw [mapHeader, cString_payloadLoop frame _ (by omega)]
    refine ⟨?_, fun c hc => exists_unhexDigit hc⟩
    rw [length_hexDigits, List.length_map, List.length_range']
    omega

/-! ### The whole frame -/

/-- The decoded frame: the bytes of the addresses, the numbers of the other fields, and `_payload`,
    a string of digits of the bytes behind the headers. -/
structure Decodes (frame : ℕ → UInt8) (framelen : ℕ) (r : MapperT) : Prop where
  eth_dhost : r.eth_dhost.octet.toList = (List.range' 0 6).map frame
  eth_shost : r.eth_shost.octet.toList = (List.range' 6 6).map frame
  eth_type : r.eth_type.toNat = 256 * (frame 12).toNat + (frame 13).toNat
  ip_ihl : r.ip_ihl.toNat = (frame 14).toNat % 16
  ip_version : r.ip_version.toNat = (frame 14).toNat / 16
  ip_tos : r.ip_tos = frame 15
  ip_len : r.ip_len.toNat = 256 * (frame 16).toNat + (frame 17).toNat
  ip_id : r.ip_id.toNat = 256 * (frame 18).toNat + (frame 19).toNat
  ip_off : r.ip_off.toNat = 256 * (frame 20).toNat + (frame 21).toNat
  ip_ttl : r.ip_ttl = frame 22
  ip_protocol : r.ip_protocol = frame 23
  ip_sum : r.ip_sum.toNat = 256 * (frame 24).toNat + (frame 25).toNat
  ip_src : leBytes 4 r.ip_src.toNat = (List.range' 26 4).map frame
  ip_dst : leBytes 4 r.ip_dst.toNat = (List.range' 30 4).map frame
  length_payload :
    r.payload.length = 2 * min 16 (framelen - 14 - 4 * ((frame 14).toNat % 16))
  upper_payload : ∀ c ∈ r.payload, ∃ n, unhexDigit c = some n
  unhex_payload : unhex r.payload =
    some ((List.range' (14 + 4 * ((frame 14).toNat % 16))
      (min 16 (framelen - 14 - 4 * ((frame 14).toNat % 16)))).map frame)
  array_payload : ∃ k, (payloadArray r.stores).toList = r.payload ++ 0 :: List.replicate k 0
  stores_lt : ∀ st ∈ r.stores, st.1 < 33

/-- The bit field `ip_ihl` is the lower half of the byte. -/
theorem toNat_ihl (b : UInt8) : (ihl b).toNat = b.toNat % 16 := by
  rw [ihl, UInt8.toNat_and]
  exact Nat.and_two_pow_sub_one_eq_mod b.toNat 4

/-- The bit field `ip_v` is the upper half. -/
theorem toNat_version (b : UInt8) : (version b).toNat = b.toNat / 16 := by
  rw [version, UInt8.toNat_shiftRight]
  exact Nat.shiftRight_eq_div_pow b.toNat 4

/-- A field of the copied headers has the bytes of the frame at its place. -/
theorem toList_extract_ofFn (frame : ℕ → UInt8) (start n : ℕ) (h : start + n ≤ 34) :
    ((Vector.ofFn fun i : Fin 34 => frame i).extract start (start + n)).toList =
      (List.range' start n).map frame := by
  apply List.ext_getElem
  · simp only [Vector.length_toList, List.length_map, List.length_range']
    omega
  · intro i h₁ h₂
    simp

/-- The fields of the structures over the first 34 bytes, and the payload behind the header. -/
theorem decodes_mapHeader {framelen ihl left : ℕ} (hihl : ihl = (frame 14).toNat % 16)
    (hleft : left = min 16 (framelen - 14 - 4 * ihl)) {stores : List (ℕ × UInt8)}
    (hstores : stores = (payloadLoop frame (14 + 4 * ihl) left 0 0).value)
    (hlt : ∀ st ∈ stores, st.1 < 33) :
    Decodes frame framelen (mapHeader (Vector.ofFn fun i => frame i) stores) := by
  have h16 : left ≤ 16 := hleft ▸ min_le_left _ _
  -- the loop copies at most 16 bytes, all of which fit the array
  have hpayload : (mapHeader (Vector.ofFn fun i => frame i) stores).payload =
      hexDigits ((List.range' (14 + 4 * ihl) left).map frame) := by
    rw [hstores]
    exact cString_payloadLoop frame _ h16
  exact {
    eth_dhost := toList_extract_ofFn frame 0 6 (by decide)
    eth_shost := toList_extract_ofFn frame 6 6 (by decide)
    eth_type := by simp [mapHeader, toNat_be16toh]
    ip_ihl := by simp [mapHeader, toNat_ihl]
    ip_version := by simp [mapHeader, toNat_version]
    ip_tos := by simp [mapHeader]
    ip_len := by simp [mapHeader, toNat_be16toh]
    ip_id := by simp [mapHeader, toNat_be16toh]
    ip_off := by simp [mapHeader, toNat_be16toh]
    ip_ttl := by simp [mapHeader]
    ip_protocol := by simp [mapHeader]
    ip_sum := by simp [mapHeader, toNat_be16toh]
    ip_src := by simp [mapHeader, leBytes_le32, List.range'_succ]
    ip_dst := by simp [mapHeader, leBytes_le32, List.range'_succ]
    length_payload := by
      rw [hpayload, length_hexDigits, List.length_map, List.length_range', hleft, hihl]
    upper_payload := by
      rw [hpayload]
      exact fun c hc => exists_unhexDigit hc
    unhex_payload := by rw [hpayload, unhex_hexDigits, hleft, hihl]
    array_payload := by
      refine ⟨32 - 2 * left, ?_⟩
      rw [hpayload, ← payloadArray_payloadLoop frame _ h16, ← hstores]
      rfl
    stores_lt := hlt }

/-- The length of the IP header in bytes. -/
theorem sizeIp_eq (frame : ℕ → UInt8) : sizeIp frame = 4 * ((frame 14).toNat % 16) := by
  rw [sizeIp, toNat_ihl, Nat.mul_comm]

/-- `mapFrame` gives up exactly on a header length below 5. -/
theorem mapFrame_eq_none_iff (frame : ℕ → UInt8) (framelen : UInt64) :
    (mapFrame frame framelen).value = none ↔ (frame 14).toNat % 16 < 5 := by
  have hsize := sizeIp_eq frame
  by_cases hshort : sizeIp frame < 20
  · rw [mapFrame_of_lt hshort]
    exact iff_of_true rfl (by omega)
  · rw [mapFrame_of_le (Nat.le_of_not_lt hshort)]
    exact iff_of_false (Option.some_ne_none _) (by omega)

/-- What it makes of a frame in which the header ends. -/
theorem decodes_of_mapFrame {results : MapperT}
    (h : (mapFrame frame framelen).value = some results)
    (hlen : 14 + 4 * ((frame 14).toNat % 16) ≤ framelen.toNat) :
    Decodes frame framelen.toNat results := by
  have hsize := sizeIp_eq frame
  have hstores := stores_lt h
  have hproper : 20 ≤ sizeIp frame := by
    by_contra hshort
    rw [mapFrame_of_lt (Nat.lt_of_not_le hshort)] at h
    cases h
  -- the header ends in the frame, so that the difference of the bound does not wrap around
  have hbound : (payloadBound framelen (sizeIp frame)).toNat =
      min 16 (framelen.toNat - 14 - 4 * ((frame 14).toNat % 16)) := by
    have hlt := framelen.toNat_lt
    rw [toNat_payloadBound (sizeIp_le frame), hsize]
    omega
  rw [mapFrame_of_le hproper, hbound, hsize] at h
  obtain rfl := Option.some.inj h
  exact decodes_mapHeader rfl rfl rfl hstores

/-- **Frames are decoded.**  `mapFrame` returns `false` exactly for a header length below 5, and
    decodes every frame in which the header ends. -/
theorem mapFrame_decodes (frame : ℕ → UInt8) (framelen : UInt64) :
    ((mapFrame frame framelen).value = none ↔ (frame 14).toNat % 16 < 5) ∧
    (5 ≤ (frame 14).toNat % 16 → 14 + 4 * ((frame 14).toNat % 16) ≤ framelen.toNat →
      ∃ results, (mapFrame frame framelen).value = some results ∧
        Decodes frame framelen.toNat results) := by
  have hnone := mapFrame_eq_none_iff frame framelen
  refine ⟨hnone, fun h5 hlen => ?_⟩
  obtain ⟨results, hresults⟩ :=
    Option.ne_none_iff_exists'.mp fun h => Nat.not_lt.mpr h5 (hnone.mp h)
  exact ⟨results, hresults, decodes_of_mapFrame hresults hlen⟩

/-- A frame of 41 bytes whose header has options, and three bytes of payload that are negative as
    `char`s. -/
def frameWithOptions (i : ℕ) : UInt8 := if i = 14 then 0x46 else UInt8.ofNat (200 + i)

/-- A frame with options in its IP header is decoded. -/
theorem mapFrame_decodes_options :
    5 ≤ (frameWithOptions 14).toNat % 16 ∧ 14 + 4 * ((frameWithOptions 14).toNat % 16) ≤ 41 ∧
      ∃ results, (mapFrame frameWithOptions 41).value = some results ∧
        Decodes frameWithOptions 41 results :=
  ⟨by decide, by decide, (mapFrame_decodes frameWithOptions 41).2 (by decide) (by decide)⟩

end Niuchacz.PacketAnalyze
