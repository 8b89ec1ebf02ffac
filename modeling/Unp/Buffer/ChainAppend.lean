import Unp.Buffer.Capacity

/-!
# Appending to a chain that has been read from

The `append` functions of a chain ask `realloc` for room for the bytes that are there and the new ones.
They write behind `off`, though, and the `misalign` bytes in front of the data count there. `realloc`
moves the data to the front of a new block, but only if it is asked for more than the chain has; when
the block is large enough for the bytes and not for the gap, the copy runs out of it.
-/

namespace Unp.Reactor
namespace BufferChain

open Unp.Machine

/-- The call returns, and the chain holds what it held and `src` behind it. -/
def Appends {α : Type} (c : BufferChain) (src : List Byte) (r : Res (α × BufferChain)) : Prop :=
  ∃ ret c', r = .ok (ret, c') ∧ c'.Ok ∧ c'.data = c.data ++ src

/-- There is room for `n` bytes behind the data, or the block is too small for them anyway: no size in
which blocks come would be enough for all bytes and fit into it. -/
def Fits (c : BufferChain) (n : Nat) : Prop :=
  c.off + n ≤ c.capacity ∨
    ∀ k, c.off - c.misalign + n ≤ defaultChainSize * 2 ^ k → c.capacity < defaultChainSize * 2 ^ k

/-- What `realloc` is asked for, and the copy behind it. -/
def growAndWrite (c : BufferChain) (src : List Byte) : Res BufferChain := do
  let c ← c.realloc (calculateActualCapacity (u32 (c.size + src.length)))
  c.write src

section Append
variable {c : BufferChain} {src : List Byte} {n : Nat}

/-- The block is replaced. -/
theorem growAndWrite_compact (h : c.Ok) (hlt : c.off + src.length < 2 ^ 32)
    (hgrow : c.capacity < calculateActualCapacity (c.data.length + src.length)) :
    ∃ c', c.growAndWrite src = .ok c' ∧ Grown c c' src := by
  have hlen := h.length_data
  have hneed : u32 (c.size + src.length) = c.data.length + src.length := by
    rw [h.size_eq_length, u32_of_lt (by omega)]
  have hge := le_calculateActualCapacity (c.data.length + src.length)
  have hcap : calculateActualCapacity (c.data.length + src.length) < 2 ^ 32 :=
    calculateActualCapacity_lt (by omega)
  have hmoved := compact_grown (c := c) (Nat.le_trans (Nat.le_add_right _ _) hge) hcap
  have hwritten := written_grown src hmoved.ok hge
  refine ⟨_, ?_, hwritten.ok, ?_, hwritten.next_eq, hwritten.parent_eq⟩
  · rw [growAndWrite, hneed, realloc_eq h hgrow, ok_bind, write_eq hmoved.ok hge]
  · rw [hwritten.data_eq, hmoved.data_eq, List.append_nil]

/-- The block stays, and the copy begins behind the data. -/
theorem growAndWrite_stays (h : c.Ok) (hlt : c.off + src.length < 2 ^ 32)
    (hstay : ¬ c.capacity < calculateActualCapacity (c.data.length + src.length)) :
    c.growAndWrite src = c.write src := by
  have hlen := h.length_data
  have hneed : u32 (c.size + src.length) = c.data.length + src.length := by
    rw [h.size_eq_length, u32_of_lt (by omega)]
  rw [growAndWrite, hneed, realloc, if_neg hstay]
  rfl

theorem write_fails (h : c.Ok) (hover : c.capacity < c.off + src.length) :
    c.write src = .error .outOfBounds := by
  have hlong : ¬ c.off + src.length ≤ c.buffer.length := by
    rw [h.length_buffer]
    exact Nat.not_le.mpr hover
  rw [write, memcpy, if_neg hlong]
  rfl

/-- The sizes in which blocks come, as far as a chain with `off + n` below `2 ^ 31` is concerned. -/
theorem fits_iff (h : c.Ok) (hlt : c.off + n < 2 ^ 31) :
    c.Fits n ↔ c.off + n ≤ c.capacity ∨
      c.capacity < calculateActualCapacity (c.data.length + n) := by
  have hlen := h.length_data
  have hmis := h.misalign_le
  rw [Fits, hlen]
  generalize hgiven : c.off - c.misalign + n = given
  by_cases hroom : c.off + n ≤ c.capacity
  · exact iff_of_true (.inl hroom) (.inl hroom)
  · rw [or_iff_right hroom, or_iff_right hroom]
    by_cases hlimit : given < maximumChainSize / 2
    · obtain ⟨j, hj, -, hcalc, hle, hleast⟩ := calculateActualCapacity_eq_pow hlimit
      have hpow : ∀ k, defaultChainSize * 2 ^ k = 2 ^ (10 + k) := fun k => (pow_add 2 10 k).symm
      rw [hcalc]
      constructor
      · intro hall
        have hfound := hall (j - 10)
        rw [hpow, Nat.add_sub_cancel' hj] at hfound
        exact hfound hle
      · intro hless k hk
        rw [hpow] at hk ⊢
        -- no smaller power would do
        apply Nat.lt_of_lt_of_le hless
        apply Nat.pow_le_pow_right (by decide)
        by_contra hsmall
        have hbelow := hleast (by omega)
        have hmono : 2 ^ (10 + k) ≤ 2 ^ (j - 1) := Nat.pow_le_pow_right (by decide) (by omega)
        omega
    · rw [calculateActualCapacity_of_le (Nat.not_lt.mp hlimit)]
      unfold maximumChainSize at hlimit
      refine iff_of_true (fun k hk => by omega) (by omega)

theorem growAndWrite_grown (h : c.Ok) (hlt : c.off + src.length < 2 ^ 31) (hfits : c.Fits src.length) :
    ∃ c', c.growAndWrite src = .ok c' ∧ Grown c c' src := by
  have hlt' : c.off + src.length < 2 ^ 32 := by omega
  by_cases hgrow : c.capacity < calculateActualCapacity (c.data.length + src.length)
  · exact growAndWrite_compact h hlt' hgrow
  · have hroom := ((fits_iff h hlt).mp hfits).resolve_right hgrow
    rw [growAndWrite_stays h hlt' hgrow]
    exact ⟨_, write_eq h hroom, written_grown src h hroom⟩

theorem growAndWrite_fails (h : c.Ok) (hlt : c.off + src.length < 2 ^ 31)
    (hover : ¬ c.Fits src.length) : c.growAndWrite src = .error .outOfBounds := by
  rw [fits_iff h hlt, not_or] at hover
  rw [growAndWrite_stays h (by omega) hover.2]
  exact write_fails h (Nat.not_le.mp hover.1)

/-- The other two functions ask for nothing while there is room behind the data. -/
def writeOrGrow (c : BufferChain) (src : List Byte) : Res BufferChain :=
  if c.chainFreeSpace < src.length then c.growAndWrite src else c.write src

theorem writeOrGrow_grown (h : c.Ok) (hlt : c.off + src.length < 2 ^ 31) (hfits : c.Fits src.length) :
    ∃ c', c.writeOrGrow src = .ok c' ∧ Grown c c' src := by
  have hoff := h.off_le
  rw [writeOrGrow, h.chainFreeSpace_eq]
  split
  · exact growAndWrite_grown h hlt hfits
  · next hroom =>
      have hroom' : c.off + src.length ≤ c.capacity := by omega
      exact ⟨_, write_eq h hroom', written_grown src h hroom'⟩

theorem writeOrGrow_fails (h : c.Ok) (hlt : c.off + src.length < 2 ^ 31)
    (hover : ¬ c.Fits src.length) : c.writeOrGrow src = .error .outOfBounds := by
  have hsmall : c.chainFreeSpace < src.length := by
    rw [h.chainFreeSpace_eq]
    by_contra hroom
    have hoff := h.off_le
    exact hover (.inl (by omega))
  rw [writeOrGrow, if_pos hsmall]
  exact growAndWrite_fails h hlt hover

/-- A function that ends with one of the two. -/
theorem appends_iff {α : Type} {ret : α} {grow : Res BufferChain} {r : Res (α × BufferChain)}
    (hr : r = grow >>= fun c' => pure (ret, c'))
    (hgrown : c.Fits src.length → ∃ c', grow = .ok c' ∧ Grown c c' src)
    (hfails : ¬ c.Fits src.length → grow = .error .outOfBounds) :
    c.Appends src r ↔ c.Fits src.length := by
  constructor
  · rintro ⟨ret', c', hok, -⟩
    by_contra hover
    rw [hr, hfails hover] at hok
    cases hok
  · intro hfits
    obtain ⟨c', hok, hg⟩ := hgrown hfits
    rw [hr, hok]
    exact ⟨ret, c', rfl, hg.ok, hg.data_eq⟩

/-! ## The three functions -/

theorem appendData_appends_iff {block : List Byte} (h : c.Ok) (hlt : c.off + n < 2 ^ 31)
    (hblock : n ≤ block.length) :
    c.Appends (block.take n) (c.appendData (some block) n) ↔ c.Fits n := by
  have htake : (block.take n).length = n := List.length_take_of_le hblock
  rcases Nat.eq_zero_or_pos n with rfl | hpos
  · refine iff_of_true ⟨-1, c, rfl, h, ?_⟩ (.inl h.off_le)
    rw [List.take_zero, List.append_nil]
  · have hread : readMem block 0 n = .ok (block.take n) := by
      rw [readMem_ok (by omega), slice, List.drop_zero]
    have hr : c.appendData (some block) n =
        c.growAndWrite (block.take n) >>= fun c' => pure ((n : Int), c') := by
      rw [appendData, if_neg (Nat.ne_of_gt hpos), growAndWrite, htake]
      simp only [hread, ok_bind, bind_assoc]
    rw [← htake] at hlt
    have hiff := appends_iff hr (growAndWrite_grown h hlt) (growAndWrite_fails h hlt)
    rwa [htake] at hiff

theorem appendChain_appends_iff {chain : BufferChain} (h : c.Ok) (hchain : chain.Ok)
    (hlt : c.off + chain.data.length < 2 ^ 31) :
    c.Appends chain.data (c.appendChain chain) ↔ c.Fits chain.data.length := by
  have hr : c.appendChain chain =
      c.writeOrGrow chain.data >>= fun c' => pure (chain.data.length, c') := by
    rw [appendChain, hchain.size_eq_length, writeOrGrow, growAndWrite,
      Nat.add_comm chain.data.length c.size]
    split
    · simp only [hchain.readMem_data, ok_bind, bind_assoc]
    · simp only [hchain.readMem_data, ok_bind, pure_eq_ok]
  exact appends_iff hr (writeOrGrow_grown h hlt) (writeOrGrow_fails h hlt)

theorem appendSlice_appends_iff {chain : BufferChain} {a : Addr} {start : BufferIter} (h : c.Ok)
    (hchain : chain.Ok) (hlt : c.off + n < 2 ^ 31) (hstart : start.chain = some a)
    (hlo : chain.misalign ≤ start.offsetOfChain) (hhi : start.offsetOfChain + n ≤ chain.off) :
    c.Appends (slice chain.buffer start.offsetOfChain n) (c.appendSlice a chain n start) ↔
      c.Fits n := by
  have hoff := hchain.off_le
  have hbuffer := hchain.length_buffer
  have hcap := hchain.capacity_lt
  have hslice : (slice chain.buffer start.offsetOfChain n).length = n := length_slice (by omega)
  by_cases hin : start.offsetOfChain < chain.off
  · have hvalid : chain.validateIter a start = true := by
      simp only [validateIter, hstart, decide_eq_true_eq]
      exact ⟨trivial, hin, hlo⟩
    have hread : readMem chain.buffer start.offsetOfChain n =
        .ok (slice chain.buffer start.offsetOfChain n) := readMem_ok (by omega)
    have hguard : ¬ (chain.size < n ∨ ¬ chain.validateIter a start = true ∨
        subU32 chain.off start.offsetOfChain < n) := by
      rw [hchain.size_eq, subU32_of_le (by omega) (by omega)]
      simp only [hvalid, not_true_eq_false, false_or]
      omega
    have hr : c.appendSlice a chain n start =
        c.writeOrGrow (slice chain.buffer start.offsetOfChain n) >>= fun c' => pure (n, c') := by
      rw [appendSlice, if_neg hguard, writeOrGrow, growAndWrite, hslice, Nat.add_comm n c.size]
      split
      · simp only [hread, ok_bind, bind_assoc]
      · simp only [hread, ok_bind, pure_eq_ok]
    rw [← hslice] at hlt
    have hiff := appends_iff hr (writeOrGrow_grown h hlt) (writeOrGrow_fails h hlt)
    rwa [hslice] at hiff
  · -- at the end of the data there is nothing to append
    obtain rfl : n = 0 := by omega
    have hinvalid : ¬ chain.validateIter a start = true := by
      simp only [validateIter, decide_eq_true_eq]
      exact fun hvalid => hin hvalid.2.1
    have hrefused : c.appendSlice a chain 0 start = .ok (0, c) := by
      rw [appendSlice, if_pos (.inr (.inl hinvalid))]
      rfl
    rw [hrefused]
    refine iff_of_true ⟨0, c, rfl, h, ?_⟩ (.inl h.off_le)
    rw [List.length_eq_zero_iff.mp hslice, List.append_nil]

/-- **`append` stays in bounds** exactly when it fits, and that is the same for all three. -/
theorem append_inBounds_iff (h : c.Ok) (hlt : c.off + n < 2 ^ 31) :
    (∀ block : List Byte, n ≤ block.length →
      (c.Appends (block.take n) (c.appendData (some block) n) ↔ c.Fits n)) ∧
    (∀ chain : BufferChain, chain.Ok → chain.data.length = n →
      (c.Appends chain.data (c.appendChain chain) ↔ c.Fits n)) ∧
    ∀ (a : Addr) (chain : BufferChain) (start : BufferIter), chain.Ok → start.chain = some a →
      chain.misalign ≤ start.offsetOfChain → start.offsetOfChain + n ≤ chain.off →
      (c.Appends (slice chain.buffer start.offsetOfChain n) (c.appendSlice a chain n start) ↔
        c.Fits n) := by
  refine ⟨fun block hblock => appendData_appends_iff h hlt hblock, ?_, ?_⟩
  · rintro chain hchain rfl
    exact appendChain_appends_iff h hchain hlt
  · intro a chain start hchain hstart hlo hhi
    exact appendSlice_appends_iff h hchain hlt hstart hlo hhi

end Append

/-- A block of 1024 bytes, the first 500 of which have been read and the last 24 of which are free. -/
def halfRead : BufferChain := ⟨calloc 1024, 1024, 1000, none, some 0, 500⟩

theorem halfRead_ok : halfRead.Ok := ⟨by decide, by decide, List.length_replicate, by decide⟩

theorem append_inBounds_halfRead :
    halfRead.Appends ((calloc 24).take 24) (halfRead.appendData (some (calloc 24)) 24) := by
  have hiff := append_inBounds_iff halfRead_ok (n := 24) (by decide)
  exact (hiff.1 (calloc 24) (by decide)).mpr (.inl (by decide))

/-- The 600 bytes would fit into the block, but not behind the gap. -/
theorem halfRead_overruns : halfRead.Ok ∧ halfRead.off + 100 < 2 ^ 31 ∧
    halfRead.appendData (some (calloc 100)) 100 = .error .outOfBounds ∧
    halfRead.appendChain ⟨calloc 1024, 1024, 100, none, some 0, 0⟩ = .error .outOfBounds ∧
    halfRead.appendSlice 1 ⟨calloc 1024, 1024, 100, none, some 0, 0⟩ 100
      ⟨some 0, some 1, 0, 0, 0⟩ = .error .outOfBounds := by
  exact ⟨halfRead_ok, by decide, by decide +kernel, by decide +kernel, by decide +kernel⟩

end BufferChain
end Unp.Reactor
