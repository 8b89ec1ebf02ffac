import Unp.Buffer.Chain

/-!
# Chains as values

A chain can be copied and moved, when it is made or into one that is there. Copying puts the data at
the front of a block; moving takes the block over, with the data where they are. Every one of the
four sets `off_`, `misalign_` and `capacity_` anew, and they have to fit together.
-/

namespace Unp.Reactor
namespace BufferChain

open Unp.Machine

/-! ## The code -/

/-- A chain that has been moved from. -/
def movedFrom : BufferChain :=
  { buffer := [], capacity := 0, off := 0, next := none, parent := none, misalign := 0 }

/-- The move constructor: the new chain, and what is left of the other. -/
def moveOf (other : BufferChain) : BufferChain × BufferChain :=
  ({ buffer := other.buffer, capacity := other.capacity, off := other.off, next := other.next,
     parent := other.parent, misalign := other.misalign }, movedFrom)

/-- `operator=(buffer_chain&&)` onto a different chain, whose block is freed. -/
def moveAssign (_ other : BufferChain) : BufferChain × BufferChain :=
  ({ buffer := other.buffer, next := other.next, off := other.size, parent := other.parent,
     misalign := other.misalign, capacity := other.capacity }, movedFrom)

/-! ## The same bytes -/

/-- A chain in good order with the bytes of another. -/
structure SameValue (c source : BufferChain) : Prop where
  ok : c.Ok
  data_eq : c.data = source.data

/-- All four operations give a chain with the value of the source. Those that copy take it by a
constant reference. -/
structure ValueSemantics (target source : BufferChain) : Prop where
  copy : ∃ c, copyOf source = .ok c ∧ SameValue c source
  copyAssign : ∃ c, target.copyAssign source = .ok c ∧ SameValue c source
  move : SameValue (moveOf source).1 source
  moveAssign : SameValue (target.moveAssign source).1 source

variable {target source : BufferChain}

theorem copyOf_sameValue (h : source.Ok) : ∃ c, copyOf source = .ok c ∧ SameValue c source := by
  have hroom := h.length_data_le_actual
  exact ⟨_, copyOf_eq h, compact_ok hroom (calculateActualCapacity_lt h.capacity_lt),
    data_compact hroom⟩

/-- The data of `source` at the front of a block. -/
def inBlock (source : BufferChain) (block : List Byte) : BufferChain :=
  { buffer := splice block 0 source.data, capacity := block.length, off := source.data.length,
    next := source.next, parent := source.parent, misalign := 0 }

theorem inBlock_sameValue {block : List Byte} (hroom : source.data.length ≤ block.length)
    (hlt : block.length < 2 ^ 32) : SameValue (source.inBlock block) source where
  ok :=
    { misalign_le := Nat.zero_le _
      off_le := hroom
      length_buffer := length_splice (by omega)
      capacity_lt := hlt }
  data_eq := by
    have hslice := @slice_splice _ block source.data 0 0 (Nat.le_refl 0) (by omega)
    rwa [Nat.zero_add, Nat.sub_zero, slice_zero, List.nil_append] at hslice

/-- The block of the target is kept if it is as large as that of the source. -/
theorem copyAssign_eq (htarget : target.Ok) (h : source.Ok) :
    target.copyAssign source = .ok (source.inBlock
      (if target.capacity < source.capacity then calloc source.capacity else target.buffer)) := by
  have hlen := h.length_data
  have hoff := h.off_le
  have hblock := htarget.length_buffer
  rw [copyAssign, h.size_eq_length, h.readMem_data]
  by_cases hsmall : target.capacity < source.capacity
  · have hcalloc : (calloc source.capacity).length = source.capacity := by simp [calloc]
    rw [if_pos hsmall, if_pos hsmall, ok_bind, memcpy_ok (by rw [hcalloc]; omega), ok_bind,
      inBlock, hcalloc]
    rfl
  · rw [if_neg hsmall, if_neg hsmall, ok_bind, memcpy_ok (by omega), ok_bind, inBlock, hblock]
    rfl

theorem copyAssign_sameValue (htarget : target.Ok) (h : source.Ok) :
    ∃ c, target.copyAssign source = .ok c ∧ SameValue c source := by
  have hlen := h.length_data
  have hoff := h.off_le
  have hblock := htarget.length_buffer
  have hlt := h.capacity_lt
  have hlt' := htarget.capacity_lt
  refine ⟨_, copyAssign_eq htarget h, inBlock_sameValue ?_ ?_⟩
  · split
    · rw [calloc, List.length_replicate]
      omega
    · omega
  · split
    · rw [calloc, List.length_replicate]
      exact hlt
    · omega

theorem moveOf_sameValue (h : source.Ok) : SameValue (moveOf source).1 source := ⟨h, rfl⟩

/-- `off_` becomes the number of bytes, and `misalign_` stays. -/
theorem moveAssign_sameValue_iff (target : BufferChain) (h : source.Ok) :
    SameValue (target.moveAssign source).1 source ↔ source.misalign = 0 := by
  have hmoved : (target.moveAssign source).1 = { source with off := source.size } := rfl
  have hlen := h.length_data
  have hle := h.misalign_le
  rw [hmoved, h.size_eq]
  constructor
  · intro hsame
    have hmisalign : source.misalign ≤ source.off - source.misalign := hsame.ok.misalign_le
    have hlen' := hsame.ok.length_data
    rw [hsame.data_eq, hlen] at hlen'
    dsimp only at hlen'
    omega
  · intro hzero
    have hall : source.off - source.misalign = source.off := by omega
    rw [hall]
    exact ⟨h, rfl⟩

/-- A chain from which the first of three bytes has been consumed. -/
def consumed : BufferChain := { (new none 3).written [1, 2, 3] with misalign := 1 }

/-- Of the two bytes that are left the assignment keeps one. -/
theorem moveAssign_loses : consumed.data = [2, 3] ∧
    ((new none 3).moveAssign consumed).1.data = [2] ∧ ¬ ValueSemantics (new none 3) consumed := by
  have hdata : consumed.data = [2, 3] ∧ ((new none 3).moveAssign consumed).1.data = [2] := by
    decide +kernel
  refine ⟨hdata.1, hdata.2, fun h => ?_⟩
  have hsame := h.moveAssign.data_eq
  rw [hdata.1, hdata.2] at hsame
  cases hsame

/-- **Chains are values when they are aligned**, and only then: it is the move assignment that asks
for it. -/
theorem valueSemantics_iff (htarget : target.Ok) (h : source.Ok) :
    ValueSemantics target source ↔ source.misalign = 0 := by
  rw [← moveAssign_sameValue_iff target h]
  constructor
  · exact fun hvalue => hvalue.moveAssign
  · intro hassign
    exact ⟨copyOf_sameValue h, copyAssign_sameValue htarget h, moveOf_sameValue h, hassign⟩

theorem valueSemantics_iff_consumed :
    ValueSemantics (new none 3) consumed ↔ consumed.misalign = 0 :=
  valueSemantics_iff (new_ok none (by decide) (by decide))
    ⟨by decide +kernel, by decide +kernel, by decide +kernel, by decide +kernel⟩

end BufferChain
end Unp.Reactor
