import Brlib.Xxhash.OneShot

/-!
# The buffer of the update functions

Between two updates a state holds the accumulators after the full stripes of the input so far,
and the bytes that are left (`Waiting`).  An update takes these bytes in front of its own
(`updateBuffered_spec`).
-/

namespace Brlib
namespace Xxhash

open Hash Words Unaligned Blocks

/-- The array of a state is not at the very ends of the address space. -/
structure Room (base : UInt64) (n : ℕ) : Prop where
  low : 32 ≤ base.toNat
  high : base.toNat + n + 32 < 2 ^ 64

variable {k n fuel : ℕ} {round : BitVec (8 * k) → BitVec (8 * k) → BitVec (8 * k)}
variable {mem : Bytes} {base p input bEnd src : UInt64} {a b s t u : List UInt8} {buf : Buffer n}
variable {v₀ : Lanes (8 * k)} {state : Buffered (8 * k) n} {cpu : Cpu}

/-- The state after the input `s`, from the accumulators `v₀`. -/
structure Waiting (round : BitVec (8 * k) → BitVec (8 * k) → BitVec (8 * k)) (v₀ : Lanes (8 * k))
    (s : List UInt8) (state : Buffered (8 * k) n) : Prop where
  lanes : state.lanes = (absorb (stripeStep round) n v₀ s).1
  waits : ∃ b, state.mem.bytes = (absorb (stripeStep round) n v₀ s).2 ++ b
  memsize : state.memsize.toNat = (absorb (stripeStep round) n v₀ s).2.length

section Buffer

theorem stored_at (buf : Buffer n) {i : ℕ} (hroom : Room base n) (hi : i + s.length ≤ n)
    (hs : ∀ j (hj : j < s.length), buf.bytes[i + j]? = some s[j]) :
    Stored (buf.at' base) (base + UInt64.ofNat i) s := by
  induction s generalizing i with
  | nil => trivial
  | cons byte s ih =>
      have hhigh := hroom.high
      rw [List.length_cons] at hi
      have hoff : (base + UInt64.ofNat i - base).toNat = i := by
        rw [UInt64.add_comm, UInt64.add_sub_cancel, UInt64.toNat_ofNat']
        omega
      refine ⟨?_, ?_⟩
      · have hfirst := hs 0 (by simp)
        rw [Buffer.at', hoff]
        simpa using hfirst
      · rw [UInt64.add_assoc, show UInt64.ofNat i + 1 = UInt64.ofNat (i + 1) by
          rw [UInt64.ofNat_add]; rfl]
        refine ih (by omega) fun j hj => ?_
        have hnext := hs (j + 1) (by simpa using hj)
        rw [show i + 1 + j = i + (j + 1) by omega]
        simpa using hnext

theorem span_at (hroom : Room base n) (hbuf : buf.bytes = a ++ b) :
    Span (buf.at' base) base (base + UInt64.ofNat a.length) a := by
  have hlen : a.length ≤ n := by
    have hsize := buf.size
    rw [hbuf, List.length_append] at hsize
    omega
  have hlow := hroom.low
  have hhigh := hroom.high
  have hend : (base + UInt64.ofNat a.length).toNat = base.toNat + a.length := by
    rw [UInt64.toNat_add, UInt64.toNat_ofNat']
    omega
  have hstored := stored_at buf (s := a) (i := 0) hroom (by omega) fun j hj => by
    rw [hbuf, Nat.zero_add, List.getElem?_append_left hj, List.getElem?_eq_getElem hj]
  exact ⟨by simpa using hstored, hlow, by omega, by omega⟩

theorem memcpy_spec (hbuf : buf.bytes = a ++ b) (hstored : Stored mem src (t ++ u))
    (hfit : a.length + t.length ≤ n) :
    ∃ buf' c, buf.memcpy a.length mem src t.length = some buf' ∧ buf'.bytes = a ++ t ++ c := by
  refine ⟨buf.write a.length t hfit, b.drop t.length, ?_, ?_⟩
  · simp [Buffer.memcpy, readBytes_eq hstored, hfit]
  · show buf.bytes.take a.length ++ t ++ buf.bytes.drop (a.length + t.length) = _
    rw [hbuf, List.take_left' rfl, List.drop_append, List.drop_of_length_le (by omega),
      Nat.add_sub_cancel_left, List.nil_append]

end Buffer

section Update

theorem waiting_memsize_eq_zero (hwaiting : Waiting round v₀ s state) :
    state.memsize = 0 ↔ (absorb (stripeStep round) n v₀ s).2 = [] := by
  rw [← List.length_eq_zero_iff, ← hwaiting.memsize]
  exact ⟨fun h => by rw [h]; rfl, fun h => BitVec.eq_of_toNat_eq h⟩

theorem fillStripe_spec (cpu : Cpu) (hn : n = 4 * k) (hk : 0 < k) (hsmall : n ≤ 32)
    (hroom : Room base n) (hwaiting : Waiting round v₀ s state) (hspan : Span mem input bEnd t)
    (hfull : n ≤ (absorb (stripeStep round) n v₀ s).2.length + t.length) :
    ∃ p state' t', fillStripe cpu round base mem input state = some (p, state') ∧
      Span mem p bEnd t' ∧ t'.length ≤ t.length ∧ state'.memsize = 0 ∧
      absorb (stripeStep round) n v₀ (s ++ t) = absorb (stripeStep round) n state'.lanes t' := by
  have hpos : 0 < n := by omega
  set rest := (absorb (stripeStep round) n v₀ s).2 with hrest
  have hlt : rest.length < n := length_absorb_lt hpos s
  by_cases hzero : state.memsize = 0
  · have hnil : rest = [] := (waiting_memsize_eq_zero hwaiting).mp hzero
    refine ⟨input, state, t, by rw [fillStripe, if_neg (by simpa using hzero)], hspan, le_refl _,
      hzero, ?_⟩
    rw [absorb_append hpos, ← hrest, hnil, List.nil_append, ← hwaiting.lanes]
  · obtain ⟨b, hbuf⟩ := hwaiting.waits
    have hmissing : (BitVec.ofNat 32 n - state.memsize).toNat = n - rest.length := by
      rw [BitVec.toNat_sub, BitVec.toNat_ofNat, hwaiting.memsize, ← hrest]
      omega
    obtain ⟨t₁, t₂, rfl, ht₁, -⟩ := exists_append
      (show t.length = (n - rest.length) + (t.length - (n - rest.length)) by omega)
    obtain ⟨buf, c, hcopy, hbytes⟩ := memcpy_spec hbuf hspan.stored
      (show rest.length + t₁.length ≤ n by omega)
    have hblk : (rest ++ t₁).length = n := by rw [List.length_append]; omega
    have hstripe := stripe_eq cpu round state.lanes (s := [])
      (by simpa using span_at hroom hbytes) (hn ▸ hblk)
    obtain ⟨q, hstripe, -⟩ := hstripe
    have hspan' := hspan.drop
    rw [ht₁] at hspan'
    refine ⟨input + UInt64.ofNat (n - rest.length),
      { lanes := stripeStep round state.lanes (rest ++ t₁), mem := buf, memsize := 0 }, t₂, ?_,
      hspan', by simp, rfl, ?_⟩
    · rw [fillStripe, if_pos hzero]
      simp only [hmissing, hwaiting.memsize, ← hrest]
      rw [← ht₁, hcopy]
      simp only [hstripe, Option.bind_eq_bind, Option.bind_some]
    · rw [absorb_append hpos, ← hrest, ← List.append_assoc, absorb_block hpos hblk,
        ← hwaiting.lanes]

theorem moreStripes_spec (cpu : Cpu) {more : UInt64 → UInt64 → Bool} (hn : n = 4 * k)
    (hk : 0 < k) (hsmall : n ≤ 32) (hmore : more p bEnd = true ↔ n ≤ t.length) (hspan : Span mem p bEnd t)
    (hfuel : t.length < fuel) (v : Lanes (8 * k)) :
    ∃ q, moreStripes fuel cpu n round more mem bEnd p v =
        some (q, (absorb (stripeStep round) n v t).1) ∧
      Span mem q bEnd (absorb (stripeStep round) n v t).2 := by
  subst hn
  unfold moreStripes
  by_cases hlong : 4 * k ≤ t.length
  · rw [if_pos (hmore.mpr hlong)]
    exact stripeLoop_eq cpu round v hk hsmall hspan hlong hfuel
  · rw [if_neg (hmore.not.mpr hlong), absorb_short (by omega)]
    exact ⟨p, rfl, hspan⟩

theorem waiting_of_eq {lanes : Lanes (8 * k)} {rest : List UInt8} {memsize : BitVec 32}
    (habsorb : absorb (stripeStep round) n v₀ s = (lanes, rest)) (hbuf : buf.bytes = rest ++ b)
    (hsize : memsize.toNat = rest.length) : Waiting round v₀ s { lanes, mem := buf, memsize } := by
  refine ⟨?_, ⟨b, ?_⟩, ?_⟩ <;> simp only [habsorb]
  · exact hbuf
  · exact hsize

/-- The rest of an input behind its stripes goes to the front of the buffer. -/
theorem keepRest_spec {lanes : Lanes (8 * k)} {rest : List UInt8} (hsmall : n ≤ 32)
    (habsorb : absorb (stripeStep round) n v₀ s = (lanes, rest)) (hrest : rest.length < n)
    (hzero : state.memsize = 0) (hspan : Span mem p bEnd rest) :
    ∃ state', keepRest mem bEnd p { state with lanes } = some state' ∧
      Waiting round v₀ s state' := by
  by_cases hmore : p < bEnd
  · have hsize := hspan.size
    have hsub : (bEnd - p).toNat = rest.length := by
      rw [UInt64.toNat_sub_of_le _ _ (UInt64.le_of_lt hmore)]
      omega
    obtain ⟨buf, c, hcopy, hbytes⟩ := memcpy_spec (u := [])
      (show state.mem.bytes = [] ++ state.mem.bytes from rfl) (by simpa using hspan.stored) (show 0 + rest.length ≤ n by omega)
    refine ⟨{ lanes, mem := buf, memsize := BitVec.ofNat 32 rest.length }, ?_,
      waiting_of_eq habsorb hbytes ?_⟩
    · have hcopy' : state.mem.memcpy 0 mem p rest.length = some buf := hcopy
      simp only [keepRest, if_pos hmore, hsub, hcopy', Option.bind_eq_bind, Option.bind_some]
    · rw [BitVec.toNat_ofNat]
      omega
  · have hnil : rest = [] := by
      rw [hspan.lt_iff] at hmore
      exact List.length_eq_zero_iff.mp (by omega)
    subst hnil
    refine ⟨{ state with lanes }, by rw [keepRest, if_neg hmore],
      waiting_of_eq (b := state.mem.bytes) habsorb rfl ?_⟩
    rw [hzero]
    rfl

theorem updateBuffered_short {more : UInt64 → UInt64 → Bool} (hsmall : n ≤ 32)
    (hwaiting : Waiting round v₀ s state) (hstocked : Stocked mem input t)
    (hshort : (absorb (stripeStep round) n v₀ s).2.length + t.length < n) :
    ∃ state', updateBuffered fuel cpu round more base mem input (UInt64.ofNat t.length) state =
        some state' ∧ Waiting round v₀ (s ++ t) state' := by
  have hlen : (UInt64.ofNat t.length).toNat = t.length := by
    rw [UInt64.toNat_ofNat', Nat.mod_eq_of_lt (Span.length_lt hstocked)]
  have htest : UInt64.ofNat state.memsize.toNat + UInt64.ofNat t.length < UInt64.ofNat n := by
    rw [UInt64.lt_iff_toNat_lt, UInt64.toNat_add, hlen, hwaiting.memsize, UInt64.toNat_ofNat',
      UInt64.toNat_ofNat']
    omega
  obtain ⟨b, hbuf⟩ := hwaiting.waits
  obtain ⟨buf, c, hcopy, hbytes⟩ := memcpy_spec (u := []) hbuf
    (by simpa using hstocked.stored) hshort.le
  have habsorb : absorb (stripeStep round) n v₀ (s ++ t) =
      (state.lanes, (absorb (stripeStep round) n v₀ s).2 ++ t) := by
    rw [absorb_append (by omega), absorb_short (by rwa [List.length_append]), ← hwaiting.lanes]
  refine ⟨{ state with mem := buf, memsize := state.memsize + BitVec.ofNat 32 t.length }, ?_,
    waiting_of_eq habsorb hbytes ?_⟩
  · rw [updateBuffered, if_pos htest]
    simp only [hwaiting.memsize, hlen, hcopy, Option.bind_eq_bind, Option.bind_some]
  · rw [BitVec.toNat_add, hwaiting.memsize, BitVec.toNat_ofNat, List.length_append]
    omega

/-- An update appends its input to what the state has got so far. -/
theorem updateBuffered_spec (cpu : Cpu) (more : UInt64 → UInt64 → Bool) (hn : n = 4 * k)
    (hk : 0 < k) (hsmall : n ≤ 32)
    (hmore : ∀ p bEnd t, Span mem p bEnd t → (more p bEnd = true ↔ n ≤ t.length))
    (hroom : Room base n) (hwaiting : Waiting round v₀ s state) (hstocked : Stocked mem input t)
    (hfuel : t.length < fuel) :
    ∃ state', updateBuffered fuel cpu round more base mem input (UInt64.ofNat t.length) state =
        some state' ∧ Waiting round v₀ (s ++ t) state' := by
  have hpos : 0 < n := by omega
  by_cases hshort : (absorb (stripeStep round) n v₀ s).2.length + t.length < n
  · exact updateBuffered_short hsmall hwaiting hstocked hshort
  · have hlt : (absorb (stripeStep round) n v₀ s).2.length < n := length_absorb_lt hpos s
    have htest : ¬ UInt64.ofNat state.memsize.toNat + UInt64.ofNat t.length < UInt64.ofNat n := by
      have hlow := hstocked.low
      have hhigh := hstocked.high
      have hsize := hstocked.size
      rw [UInt64.lt_iff_toNat_lt, UInt64.toNat_add, hwaiting.memsize, UInt64.toNat_ofNat',
        UInt64.toNat_ofNat', UInt64.toNat_ofNat']
      omega
    obtain ⟨p, filled, t', hfill, hspan, hle, hzero, hjoin⟩ := fillStripe_spec cpu hn hk
      hsmall hroom hwaiting hstocked (by omega)
    obtain ⟨q, hstripes, hspan'⟩ := moreStripes_spec cpu hn hk hsmall
      (hmore p _ t' hspan) hspan (lt_of_le_of_lt hle hfuel) filled.lanes
    rw [← hjoin] at hstripes hspan'
    obtain ⟨state', hkeep, hwaiting'⟩ := keepRest_spec hsmall rfl (length_absorb_lt hpos _) hzero
      hspan'
    refine ⟨state', ?_, hwaiting'⟩
    rw [updateBuffered, if_neg htest]
    simp only [hfill, hstripes, hkeep, Option.bind_eq_bind, Option.bind_some]

end Update

end Xxhash
end Brlib
