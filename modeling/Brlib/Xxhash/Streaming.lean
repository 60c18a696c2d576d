import Brlib.Xxhash.Buffered

/-!
# Streaming is hashing at once

However an input is cut into pieces, reset, the updates and digest compute what the one-shot
function computes of the whole (`xxh32_stream`, `xxh64_stream`).  The pieces may be in different
memories, and the two computations on different CPUs.  A NULL input is refused and changes
nothing.
-/

namespace Brlib
namespace Xxhash

open Hash Words Unaligned Blocks

/-- The input of an update. -/
inductive Chunk where
  | null (mem : Bytes) (len : UInt64)
  | buffer (mem : Bytes) (input : UInt64) (bytes : List UInt8) (stocked : Stocked mem input bytes)

namespace Chunk

def bytes : Chunk → List UInt8
  | null _ _ => []
  | buffer _ _ bytes _ => bytes

/-- The return value of the update. -/
def code : Chunk → ℤ
  | null _ _ => einval
  | buffer _ _ _ _ => 0

end Chunk

variable {σ : Type}

def feed (update : Bytes → UInt64 → UInt64 → σ → Option (σ × ℤ)) : Chunk → σ → Option (σ × ℤ)
  | .null mem len => update mem 0 len
  | .buffer mem input bytes _ => update mem input (UInt64.ofNat bytes.length)

/-- The updates one after the other; returns the state and the error codes. -/
def feedAll (update : Bytes → UInt64 → UInt64 → σ → Option (σ × ℤ)) :
    List Chunk → σ → Option (σ × List ℤ)
  | [], state => some (state, [])
  | chunk :: chunks, state => do
      let (state, code) ← feed update chunk state
      let (state, codes) ← feedAll update chunks state
      some (state, code :: codes)

variable {update : Bytes → UInt64 → UInt64 → σ → Option (σ × ℤ)} {fuel : ℕ}
variable {chunks : List Chunk} {s t : List UInt8} {cpu : Cpu} {mem : Bytes}
variable {input base : UInt64}

theorem feedAll_spec (update : Bytes → UInt64 → UInt64 → σ → Option (σ × ℤ))
    (stands : List UInt8 → σ → Prop) {state : σ}
    (hnull : ∀ mem len state, update mem 0 len state = some (state, einval))
    (hstep : ∀ mem input t s state, Stocked mem input t → t.length < fuel → stands s state →
      ∃ state', update mem input (UInt64.ofNat t.length) state = some (state', 0) ∧
        stands (s ++ t) state')
    (hfuel : ∀ chunk ∈ chunks, chunk.bytes.length < fuel) (hstands : stands s state) :
    ∃ state', feedAll update chunks state = some (state', chunks.map Chunk.code) ∧
      stands (s ++ chunks.flatMap Chunk.bytes) state' := by
  induction chunks generalizing s state with
  | nil => exact ⟨state, rfl, by simpa using hstands⟩
  | cons chunk chunks ih =>
      have hrest : ∀ c ∈ chunks, c.bytes.length < fuel := fun c hc =>
        hfuel c (List.mem_cons_of_mem chunk hc)
      cases chunk with
      | null mem len =>
          obtain ⟨state', hrun, hstands'⟩ := ih hrest hstands
          refine ⟨state', ?_, by simpa [Chunk.bytes] using hstands'⟩
          simp [feedAll, feed, hnull, hrun, Chunk.code]
      | buffer mem input t hstocked =>
          obtain ⟨next, hupdate, hnext⟩ := hstep mem input t s state hstocked
            (hfuel _ List.mem_cons_self) hstands
          obtain ⟨state', hrun, hstands'⟩ := ih hrest hnext
          refine ⟨state', ?_, by simpa [Chunk.bytes] using hstands'⟩
          simp [feedAll, feed, hupdate, hrun, Chunk.code]

theorem Span.input_ne_zero {p bEnd : UInt64} (hspan : Span mem p bEnd s) : p ≠ 0 := by
  intro h
  have hlow := hspan.low
  rw [h] at hlow
  exact absurd hlow (by decide)

theorem waiting_reset {w n : ℕ} {round : BitVec (8 * w) → BitVec (8 * w) → BitVec (8 * w)}
    (hn : 0 < n) (v₀ : Lanes (8 * w)) :
    Waiting round v₀ [] { lanes := v₀, mem := Buffer.zero n, memsize := 0 } :=
  waiting_of_eq (b := (Buffer.zero n).bytes) (absorb_short (by simpa using hn)) rfl rfl

/-- A page of which every byte is the low byte of its address. -/
def addresses : Bytes := fun q => if q < 4096 then some q.toUInt8 else none

/-- Two pieces that fill a stripe together, and a NULL between them. -/
def pieces : List Chunk :=
  [.buffer addresses 100 [100, 101, 102, 103, 104]
      (stocked_of_stored (by decide) (by decide) (by decide)),
    .null addresses 3,
    .buffer addresses 200 [200, 201, 202, 203, 204, 205, 206, 207, 208, 209, 210, 211]
      (stocked_of_stored (by decide) (by decide) (by decide))]

section Xxh32

variable {seed : BitVec 32} {state : Xxh32State}

/-- The state stands for the input `s`. -/
structure Stands32 (seed : BitVec 32) (s : List UInt8) (state : Xxh32State) : Prop where
  waiting : Waiting (k := 4) xxh32Round (xxh32Lanes seed) s state.toBuffered
  totalLen32 : state.totalLen32 = BitVec.ofNat 32 s.length
  largeLen : state.largeLen ≠ 0 ↔ 16 ≤ s.length

theorem stands32_reset (seed : BitVec 32) : Stands32 seed [] (xxh32Reset seed) where
  waiting := waiting_reset (by decide) _
  totalLen32 := rfl
  largeLen := ⟨fun h => absurd rfl h, fun h => absurd h (by simp)⟩

theorem largeLen_iff {large total : BitVec 32} {n m : ℕ} (hm : m < 2 ^ 64)
    (hlarge : large ≠ 0 ↔ 16 ≤ n) (htotal : total = BitVec.ofNat 32 (n + m)) :
    large ||| ((if 16 ≤ UInt64.ofNat m then 1 else 0) ||| (if 16 ≤ total then 1 else 0)) ≠ 0 ↔
      16 ≤ n + m := by
  have hlong : (16 : UInt64) ≤ UInt64.ofNat m ↔ 16 ≤ m := by
    rw [UInt64.le_iff_toNat_le, UInt64.toNat_ofNat', Nat.mod_eq_of_lt hm]
    rfl
  have hwrap : 16 ≤ total ↔ 16 ≤ (n + m) % 2 ^ 32 := by
    rw [htotal, BitVec.le_def, BitVec.toNat_ofNat]
    rfl
  have hone : ∀ c : Prop, [Decidable c] → ((if c then 1 else 0 : BitVec 32) ≠ 0 ↔ c) := by
    intro c hc
    split <;> simp [*]
  have hor : ∀ x y : BitVec 32, x ||| y ≠ 0 ↔ x ≠ 0 ∨ y ≠ 0 := by
    intro x y
    rw [← not_and_or]
    exact BitVec.or_eq_zero_iff.not
  rw [hor, hor, hone, hone, hlarge, hlong, hwrap]
  omega

theorem stands32_update (hroom : Room base 16) (hstands : Stands32 seed s state)
    (hstocked : Stocked mem input t) (hfuel : t.length < fuel) :
    ∃ state', xxh32Update fuel cpu base mem input (UInt64.ofNat t.length) state =
        some (state', 0) ∧ Stands32 seed (s ++ t) state' := by
  obtain ⟨buffered, hupdate, hwaiting⟩ := updateBuffered_spec cpu (k := 4)
    (fun p bEnd => p ≤ bEnd - 16) rfl (by decide) (by decide)
    (fun p bEnd t hspan => by simpa using hspan.le_sub_iff (n := 16) (by decide)) hroom
    hstands.waiting hstocked hfuel
  have hlen : (UInt64.ofNat t.length).toNat = t.length := by
    rw [UInt64.toNat_ofNat', Nat.mod_eq_of_lt (Span.length_lt hstocked)]
  have htotal : state.totalLen32 + BitVec.ofNat 32 t.length =
      BitVec.ofNat 32 (s.length + t.length) := by
    rw [hstands.totalLen32, BitVec.ofNat_add]
  have hlarge := largeLen_iff (Span.length_lt hstocked) hstands.largeLen htotal
  refine ⟨{ buffered with
    totalLen32 := state.totalLen32 + BitVec.ofNat 32 t.length
    largeLen := state.largeLen ||| ((if 16 ≤ UInt64.ofNat t.length then 1 else 0) |||
      (if 16 ≤ state.totalLen32 + BitVec.ofNat 32 t.length then 1 else 0)) }, ?_, ⟨hwaiting, ?_, ?_⟩⟩
  · rw [xxh32Update, if_neg (Span.input_ne_zero hstocked)]
    simp only [hupdate, hlen, Option.bind_eq_bind, Option.bind_some]
  · rw [List.length_append]
    exact htotal
  · rw [List.length_append]
    exact hlarge

theorem stands32_digest (hroom : Room base 16) (hstands : Stands32 seed s state)
    (hfuel : 16 < fuel) : xxh32Digest fuel cpu base state = some (xxh32Value seed s) := by
  obtain ⟨b, hbuf⟩ := hstands.waiting.waits
  have hlt : (xxh32Stripes seed s).2.length < 16 := length_absorb_lt (by decide) s
  have hspan : Span (state.mem.at' base) base (base + UInt64.ofNat state.memsize.toNat)
      (xxh32Stripes seed s).2 := by
    rw [hstands.waiting.memsize]
    exact span_at hroom hbuf
  have hlanes : state.lanes = (xxh32Stripes seed s).1 := hstands.waiting.lanes
  by_cases hs : 16 ≤ s.length
  · rw [xxh32Digest, if_pos (hstands.largeLen.mpr hs), xxh32Finish_eq cpu _ hspan (by omega), hlanes,
      hstands.totalLen32, xxh32Value, if_pos hs]
  · have hseed : state.lanes.v3 = seed := by
      rw [hlanes, xxh32Stripes, absorb_short (by omega)]
      exact BitVec.add_zero seed
    rw [xxh32Digest, if_neg (hstands.largeLen.not.mpr hs), xxh32Finish_eq cpu _ hspan (by omega), hseed,
      hstands.totalLen32, xxh32Value, if_neg hs]

/-- The digest of a stream is the hash of the whole input. -/
theorem xxh32_stream (cpu cpu' : Cpu) (seed : BitVec 32) (chunks : List Chunk)
    (hroom : Room base 16) (hshort : ∀ chunk ∈ chunks, chunk.bytes.length < fuel)
    (hfuel : 16 < fuel) :
    ∃ state hash, feedAll (xxh32Update fuel cpu base) chunks (xxh32Reset seed) =
        some (state, chunks.map Chunk.code) ∧
      xxh32Digest fuel cpu base state = some hash ∧
      ∀ fuel' mem input, Stocked mem input (chunks.flatMap Chunk.bytes) →
        (chunks.flatMap Chunk.bytes).length < fuel' →
          xxh32 fuel' cpu' mem input (UInt64.ofNat (chunks.flatMap Chunk.bytes).length) seed =
            some hash := by
  obtain ⟨state, hrun, hstands⟩ := feedAll_spec (xxh32Update fuel cpu base)
    (Stands32 seed) (fun mem len state => by simp [xxh32Update])
    (fun mem input t s state hstocked ht hstands => stands32_update hroom hstands hstocked ht)
    hshort (stands32_reset seed)
  refine ⟨state, _, hrun, stands32_digest hroom hstands hfuel, fun fuel' mem input hstocked hlen => ?_⟩
  rw [List.nil_append]
  exact xxh32_eq hstocked hlen

theorem xxh32_stream_pieces :
    ∃ state hash, feedAll (xxh32Update 17 (.ofOrder .little) 4096) pieces (xxh32Reset 7) =
        some (state, [0, -22, 0]) ∧
      xxh32Digest 17 (.ofOrder .little) 4096 state = some hash ∧
      ∀ fuel' mem input, Stocked mem input (pieces.flatMap Chunk.bytes) →
        (pieces.flatMap Chunk.bytes).length < fuel' →
          xxh32 fuel' (.ofOrder .big) mem input (UInt64.ofNat (pieces.flatMap Chunk.bytes).length) 7 =
            some hash :=
  xxh32_stream (.ofOrder .little) (.ofOrder .big) 7 pieces ⟨by decide, by decide⟩ (by decide) (by decide)

end Xxh32

section Xxh64

variable {seed : BitVec 64} {state : Xxh64State}

/-- The state stands for the input `s`. -/
structure Stands64 (seed : BitVec 64) (s : List UInt8) (state : Xxh64State) : Prop where
  waiting : Waiting (k := 8) xxh64Round (xxh64Lanes seed) s state.toBuffered
  totalLen : state.totalLen = UInt64.ofNat s.length

theorem stands64_reset (seed : BitVec 64) : Stands64 seed [] (xxh64Reset seed) where
  waiting := waiting_reset (by decide) _
  totalLen := rfl

theorem stands64_update (hroom : Room base 32) (hstands : Stands64 seed s state)
    (hstocked : Stocked mem input t) (hfuel : t.length < fuel) :
    ∃ state', xxh64Update fuel cpu base mem input (UInt64.ofNat t.length) state =
        some (state', 0) ∧ Stands64 seed (s ++ t) state' := by
  obtain ⟨buffered, hupdate, hwaiting⟩ := updateBuffered_spec cpu (k := 8)
    (fun p bEnd => p + 32 ≤ bEnd) rfl (by decide) (by decide)
    (fun p bEnd t hspan => by simpa using hspan.add_le_iff (n := 32) (by decide)) hroom
    hstands.waiting hstocked hfuel
  refine ⟨{ buffered with totalLen := state.totalLen + UInt64.ofNat t.length }, ?_, hwaiting, ?_⟩
  · rw [xxh64Update, if_neg (Span.input_ne_zero hstocked)]
    simp only [hupdate, Option.bind_eq_bind, Option.bind_some]
  · rw [hstands.totalLen, List.length_append, UInt64.ofNat_add]

theorem stands64_digest (hroom : Room base 32) (hstands : Stands64 seed s state)
    (hs : s.length < 2 ^ 64) (hfuel : 32 < fuel) :
    xxh64Digest fuel cpu base state = some (xxh64Value seed s) := by
  obtain ⟨b, hbuf⟩ := hstands.waiting.waits
  have hlt : (xxh64Stripes seed s).2.length < 32 := length_absorb_lt (by decide) s
  have hspan : Span (state.mem.at' base) base (base + UInt64.ofNat state.memsize.toNat)
      (xxh64Stripes seed s).2 := by
    rw [hstands.waiting.memsize]
    exact span_at hroom hbuf
  have hlanes : state.lanes = (xxh64Stripes seed s).1 := hstands.waiting.lanes
  have hbits : state.totalLen.toBitVec = BitVec.ofNat 64 s.length := by
    rw [hstands.totalLen]
    rfl
  have hlong : 32 ≤ state.totalLen ↔ 32 ≤ s.length := by
    rw [hstands.totalLen, UInt64.le_iff_toNat_le, UInt64.toNat_ofNat', Nat.mod_eq_of_lt hs]
    rfl
  by_cases hs : 32 ≤ s.length
  · rw [xxh64Digest, if_pos (hlong.mpr hs), xxh64Finish_eq cpu _ hspan (by omega), hlanes, hbits,
      xxh64Value, if_pos hs]
  · have hseed : state.lanes.v3 = seed := by
      rw [hlanes, xxh64Stripes, absorb_short (by omega)]
      exact BitVec.add_zero seed
    rw [xxh64Digest, if_neg (hlong.not.mpr hs), xxh64Finish_eq cpu _ hspan (by omega), hseed, hbits,
      xxh64Value, if_neg hs]

/-- The digest of a stream is the hash of the whole input, as long as the length of the stream
can be counted. -/
theorem xxh64_stream (cpu cpu' : Cpu) (seed : BitVec 64) (chunks : List Chunk)
    (hroom : Room base 32) (hshort : ∀ chunk ∈ chunks, chunk.bytes.length < fuel)
    (hcount : (chunks.flatMap Chunk.bytes).length < 2 ^ 64) (hfuel : 32 < fuel) :
    ∃ state hash, feedAll (xxh64Update fuel cpu base) chunks (xxh64Reset seed) =
        some (state, chunks.map Chunk.code) ∧
      xxh64Digest fuel cpu base state = some hash ∧
      ∀ fuel' mem input, Stocked mem input (chunks.flatMap Chunk.bytes) →
        (chunks.flatMap Chunk.bytes).length < fuel' →
          xxh64 fuel' cpu' mem input (UInt64.ofNat (chunks.flatMap Chunk.bytes).length) seed =
            some hash := by
  obtain ⟨state, hrun, hstands⟩ := feedAll_spec (xxh64Update fuel cpu base)
    (Stands64 seed) (fun mem len state => by simp [xxh64Update])
    (fun mem input t s state hstocked ht hstands => stands64_update hroom hstands hstocked ht)
    hshort (stands64_reset seed)
  rw [List.nil_append] at hstands
  refine ⟨state, _, hrun, stands64_digest hroom hstands hcount hfuel,
    fun fuel' mem input hstocked hlen => xxh64_eq hstocked hlen⟩

theorem xxh64_stream_pieces :
    ∃ state hash, feedAll (xxh64Update 33 (.ofOrder .little) 4096) pieces (xxh64Reset 7) =
        some (state, [0, -22, 0]) ∧
      xxh64Digest 33 (.ofOrder .little) 4096 state = some hash ∧
      ∀ fuel' mem input, Stocked mem input (pieces.flatMap Chunk.bytes) →
        (pieces.flatMap Chunk.bytes).length < fuel' →
          xxh64 fuel' (.ofOrder .big) mem input (UInt64.ofNat (pieces.flatMap Chunk.bytes).length) 7 =
            some hash :=
  xxh64_stream (.ofOrder .little) (.ofOrder .big) 7 pieces ⟨by decide, by decide⟩ (by decide) (by decide) (by decide)

end Xxh64

end Xxhash
end Brlib
