import Niuchacz.Lib.Access
import Niuchacz.PacketAnalyze.Exec

namespace Niuchacz.PacketAnalyze

open Lib.Access

/-!
# Frames (`mapper.c`)

`mapFrame` takes the Ethernet and the IP header from a captured frame, and up to 16 bytes of what
follows them as hexadecimal digits.  It records every byte of the frame that it reads: `frame i` is
the byte at `frame + i`, which belongs to the frame for `i` below `framelen` only.

* `mem_reads_payloadLoop`, `mem_reads_mapFrame` — which bytes are read.
* `mapFrame_in_frame` — when these are bytes of the frame.
* `stores_lt` — the digits fit into `_payload`.
-/

variable {frame : ℕ → UInt8} {framelen : UInt64}

/-! ### The function -/

/-- `mapper_t`, with the field that `packet_analyze.c` does not look at and the assignments to
    elements of `_payload`, in order. -/
structure MapperT extends Mapper where
  ip_version : UInt8
  stores : List (ℕ × UInt8)

/-- `sizeof(mapper_ethernet_t)`. -/
def sizeofEthernet : ℕ := 14

/-- `sizeof(mapper_ip_t)`. -/
def sizeofIp : ℕ := 20

/-- `gc_hexChars`. -/
def gc_hexChars : List UInt8 := "0123456789ABCDEF".toList.map fun c => UInt8.ofNat c.toNat

/-- A byte behind a `char *`, promoted to `int`: `char` is signed. -/
def ofChar (b : UInt8) : Int32 := b.toInt8.toInt32

/-- `gc_hexChars[x & 0xf]`. -/
def hexChar (x : Int32) : UInt8 := gc_hexChars.getD (x &&& 0xf).toNatClampNeg 0

/-- Two bytes in memory as a `uint16_t`. -/
def le16 (b₀ b₁ : UInt8) : UInt16 := b₀.toUInt16 ||| b₁.toUInt16 <<< 8

/-- Four bytes in memory as a `uint32_t`. -/
def le32 (b₀ b₁ b₂ b₃ : UInt8) : UInt32 :=
  b₀.toUInt32 ||| b₁.toUInt32 <<< 8 ||| b₂.toUInt32 <<< 16 ||| b₃.toUInt32 <<< 24

/-- `be16toh`, on a little-endian machine. -/
def be16toh (w : UInt16) : UInt16 := w >>> 8 ||| w <<< 8

/-- The bit field `ip_ihl` of the byte `ip_vhl`. -/
def ihl (ip_vhl : UInt8) : UInt8 := ip_vhl &&& 0xf

/-- The bit field `ip_version` of the byte `ip_vhl`. -/
def version (ip_vhl : UInt8) : UInt8 := ip_vhl >>> 4

/-- The loop over the payload, with `left` rounds to go, and the assignment of the final 0: the
    indices of `_payload` that are written, and the bytes. -/
def payloadLoop (frame : ℕ → UInt8) (payload : ℕ) :
    (left i payload_i : ℕ) → Traced ℕ (List (ℕ × UInt8))
  | 0, _, payload_i => pure [(payload_i, 0)]
  | left + 1, i, payload_i => do
      let high ← read frame (payload + i)
      let low ← read frame (payload + i)
      let rest ← payloadLoop frame payload left (i + 1) (payload_i + 2)
      return (payload_i, hexChar (ofChar high >>> 4)) :: (payload_i + 1, hexChar (ofChar low)) ::
        rest

/-- The 33 bytes of `_payload`: 0 everywhere from `memset`, then the assignments. -/
def payloadArray (stores : List (ℕ × UInt8)) : Vector UInt8 33 :=
  stores.foldl (fun a st => a.setIfInBounds st.1 st.2) (Vector.replicate 33 0)

/-- The string at the start of an array. -/
def cString {n : ℕ} (a : Vector UInt8 n) : Text := a.toList.takeWhile (· ≠ 0)

/-- `MIN`, in `size_t`. -/
def MIN (x y : UInt64) : UInt64 := if x < y then x else y

/-- The bound of the loop, in `size_t`. -/
def payloadBound (framelen : UInt64) (size_ip : ℕ) : UInt64 :=
  MIN 16 (framelen - UInt64.ofNat sizeofEthernet - UInt64.ofNat size_ip)

/-- The headers in memory, with the conversions of the 16-bit fields. -/
def mapHeader (h : Vector UInt8 34) (stores : List (ℕ × UInt8)) : MapperT where
  eth_dhost := ⟨h.extract 0 6⟩
  eth_shost := ⟨h.extract 6 12⟩
  eth_type := be16toh (le16 h[12] h[13])
  ip_ihl := ihl h[14]
  ip_version := version h[14]
  ip_tos := h[15]
  ip_len := be16toh (le16 h[16] h[17])
  ip_id := be16toh (le16 h[18] h[19])
  ip_off := be16toh (le16 h[20] h[21])
  ip_ttl := h[22]
  ip_protocol := h[23]
  ip_sum := be16toh (le16 h[24] h[25])
  ip_src := le32 h[26] h[27] h[28] h[29]
  ip_dst := le32 h[30] h[31] h[32] h[33]
  payload := cString (payloadArray stores)
  stores := stores

/-- `mapFrame`; `none` is the result `false`. -/
def mapFrame (frame : ℕ → UInt8) (framelen : UInt64) : Traced ℕ (Option MapperT) := do
  let header ← readRange frame 0 (sizeofEthernet + sizeofIp)
  let size_ip := (ihl header[14]).toNat * 4
  if size_ip < 20 then return none
  let stores ←
    payloadLoop frame (sizeofEthernet + size_ip) (payloadBound framelen size_ip).toNat 0 0
  return some (mapHeader header stores)

/-! ### What is read -/

/-- `size_ip` for this frame. -/
def sizeIp (frame : ℕ → UInt8) : ℕ := (ihl (frame 14)).toNat * 4

/-- The header length is at most 15 words. -/
theorem sizeIp_le (frame : ℕ → UInt8) : sizeIp frame ≤ 60 := by
  have hle : (ihl (frame 14)).toNat ≤ 15 := by
    rw [ihl, UInt8.toNat_and]
    exact Nat.and_le_right
  unfold sizeIp
  omega

/-- The loop reads exactly the bytes that it copies. -/
theorem mem_reads_payloadLoop {payload left i payload_i x : ℕ} :
    x ∈ (payloadLoop frame payload left i payload_i).reads ↔
      payload + i ≤ x ∧ x < payload + i + left := by
  induction left generalizing i payload_i with
  | zero =>
    simp only [payloadLoop, reads_pure, List.not_mem_nil, false_iff]
    omega
  | succ left ih =>
    simp only [payloadLoop, reads_bind, reads_read, reads_pure, List.mem_append, List.mem_singleton,
      List.not_mem_nil, or_false, ih]
    omega

/-- A header that is too short. -/
theorem mapFrame_of_lt (h : sizeIp frame < 20) :
    mapFrame frame framelen = ⟨none, List.range' 0 34⟩ := by
  have hheader : (ihl (readRange frame 0 34).value[14]).toNat * 4 = sizeIp frame := by simp [sizeIp]
  simp only [mapFrame, Bind.bind, sizeofEthernet, sizeofIp, hheader, if_pos h]
  simp

/-- Any other header. -/
theorem mapFrame_of_le (h : 20 ≤ sizeIp frame) (framelen : UInt64) :
    mapFrame frame framelen =
      ⟨some (mapHeader (Vector.ofFn fun i => frame i) (payloadLoop frame (14 + sizeIp frame)
          (payloadBound framelen (sizeIp frame)).toNat 0 0).value),
        List.range' 0 34 ++ (payloadLoop frame (14 + sizeIp frame)
          (payloadBound framelen (sizeIp frame)).toNat 0 0).reads⟩ := by
  have hheader : (ihl (readRange frame 0 34).value[14]).toNat * 4 = sizeIp frame := by simp [sizeIp]
  simp only [mapFrame, Bind.bind, sizeofEthernet, sizeofIp, hheader, if_neg (Nat.not_lt.mpr h)]
  simp

/-- **Reads.**  The headers, and the bytes after them up to the bound of the loop. -/
theorem mem_reads_mapFrame (h : 20 ≤ sizeIp frame) {x : ℕ} :
    x ∈ (mapFrame frame framelen).reads ↔ x < 34 ∨
      14 + sizeIp frame ≤ x ∧
        x < 14 + sizeIp frame + (payloadBound framelen (sizeIp frame)).toNat := by
  rw [mapFrame_of_le h framelen, List.mem_append, mem_reads_payloadLoop]
  simp

/-- The rest of the frame, in `size_t`. -/
theorem toNat_rest {size_ip : ℕ} (h : size_ip ≤ 60) :
    (framelen - UInt64.ofNat sizeofEthernet - UInt64.ofNat size_ip).toNat =
      (framelen.toNat + 2 ^ 64 - (14 + size_ip)) % 2 ^ 64 := by
  have hlen := framelen.toNat_lt
  rw [UInt64.toNat_sub, UInt64.toNat_sub, UInt64.toNat_ofNat', UInt64.toNat_ofNat', sizeofEthernet]
  omega

/-- The bound of the loop, as long as the difference does not wrap around. -/
theorem toNat_payloadBound {size_ip : ℕ} (h : size_ip ≤ 60) (framelen : UInt64) :
    (payloadBound framelen size_ip).toNat =
      min 16 ((framelen.toNat + 2 ^ 64 - (14 + size_ip)) % 2 ^ 64) := by
  have hlt : ∀ w : UInt64, (MIN 16 w).toNat = min 16 w.toNat := by
    intro w
    have h16 : (16 : UInt64).toNat = 16 := rfl
    unfold MIN
    split
    · rename_i hw
      rw [UInt64.lt_iff_toNat_lt, h16] at hw
      omega
    · rename_i hw
      rw [UInt64.lt_iff_toNat_lt, h16] at hw
      omega
  rw [payloadBound, hlt, toNat_rest h]

/-! ### Inside the frame -/

/-- **`mapFrame` stays inside the frame**: it returns `false`, or reads only bytes of the frame and
    the length of the payload does not wrap around, exactly if the header is too short or ends
    within the frame. -/
theorem mapFrame_in_frame (frame : ℕ → UInt8) (framelen : UInt64) :
    ((mapFrame frame framelen).value = none ∨
      (∀ i ∈ (mapFrame frame framelen).reads, i < framelen.toNat) ∧
        (framelen - UInt64.ofNat sizeofEthernet - UInt64.ofNat (sizeIp frame)).toNat +
          sizeofEthernet + sizeIp frame = framelen.toNat) ↔
      (ihl (frame 14)).toNat < 5 ∨ 14 + 4 * (ihl (frame 14)).toNat ≤ framelen.toNat := by
  have hsize : sizeIp frame = 4 * (ihl (frame 14)).toNat := Nat.mul_comm _ _
  have hle := sizeIp_le frame
  have hlen := framelen.toNat_lt
  rw [toNat_rest hle, sizeofEthernet]
  by_cases hshort : sizeIp frame < 20
  · rw [mapFrame_of_lt hshort]
    have h5 : (ihl (frame 14)).toNat < 5 := by omega
    simp [h5]
  · have h20 := Nat.le_of_not_lt hshort
    have hsome : (mapFrame frame framelen).value ≠ none := by
      simp [mapFrame_of_le h20 framelen]
    simp only [hsome, false_or, mem_reads_mapFrame h20, toNat_payloadBound hle]
    constructor
    · rintro ⟨hreads, hwrap⟩
      omega
    · intro h
      refine ⟨?_, by omega⟩
      -- the header ends within the frame, and the loop ends with the frame
      rintro i (hi | hi) <;> omega

/-- An IP header with options that ends outside of the captured frame. -/
theorem mapFrame_reads_outside : ∃ i ∈ (mapFrame (fun _ => 0x4f) 34).reads, ¬ i < 34 ∧
    (mapFrame (fun _ => 0x4f) 34).value ≠ none := by
  have h20 : 20 ≤ sizeIp fun _ => 0x4f := by decide
  refine ⟨74, (mem_reads_mapFrame h20).mpr (by decide), by decide, ?_⟩
  rw [mapFrame_of_le h20 34]
  simp

/-! ### The digits -/

/-- The assignments are to the elements in order. -/
theorem map_fst_payloadLoop (frame : ℕ → UInt8) (payload left i payload_i : ℕ) :
    (payloadLoop frame payload left i payload_i).value.map Prod.fst =
      List.range' payload_i (2 * left + 1) := by
  induction left generalizing i payload_i with
  | zero => rfl
  | succ left ih =>
    simp only [payloadLoop, value_bind, value_pure, List.map_cons, ih]
    rfl

/-- The digits and their final 0 fit into the 33 bytes of `_payload`, whatever the frame is. -/
theorem stores_lt {results : MapperT} (h : (mapFrame frame framelen).value = some results) :
    ∀ st ∈ results.stores, st.1 < 33 := by
  by_cases hshort : sizeIp frame < 20
  · rw [mapFrame_of_lt hshort] at h
    cases h
  · rw [mapFrame_of_le (Nat.le_of_not_lt hshort) framelen] at h
    obtain rfl := Option.some.inj h
    intro st hst
    have hbound := toNat_payloadBound (sizeIp_le frame) framelen
    have hmem := List.mem_map_of_mem (f := Prod.fst) hst
    rw [mapHeader, map_fst_payloadLoop, List.mem_range'_1] at hmem
    omega

end Niuchacz.PacketAnalyze
