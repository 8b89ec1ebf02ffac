import Mathlib.Data.List.Basic
import Mathlib.Data.List.TakeDrop
import Mathlib.Tactic.Ring

/-!
# Words, memory blocks and faults

The vocabulary in which pointer programs are embedded below: fixed-width unsigned
arithmetic on `Nat`, blocks of memory as lists of cells, and a small set of faults.

A program that can go wrong runs in `Res`. Everything the language leaves undefined (a copy
that leaves its block, a null or dangling pointer, `front` of an empty container, a signed
overflow) is a `Fault` here, next to a failing `assert` and an exception nobody catches, so
"nothing goes wrong" is the statement that the result is `Except.ok`.
-/

namespace Unp.Machine

inductive Fault where
  | outOfBounds
  | nullDeref
  /-- A destroyed object, or an iterator that is not valid any more. -/
  | dangling
  | emptyList
  | assertion
  | exception
  | overflow
  | outOfFuel
  deriving Repr, DecidableEq

abbrev Res (α : Type) := Except Fault α

section Res
variable {α β : Type}

/-- Not by `rfl`, so that `simp` keeps it as a rewrite: as a definitional step it would make the
kernel compare `ok a` with the program that follows. -/
@[simp] theorem ok_bind (a : α) (f : α → Res β) : ((Except.ok a : Res α) >>= f) = f a := by
  simp only [bind, Except.bind]

@[simp] theorem error_bind (e : Fault) (f : α → Res β) :
    ((Except.error e : Res α) >>= f) = Except.error e := by
  simp only [bind, Except.bind]

@[simp] theorem pure_eq_ok (a : α) : (pure a : Res α) = Except.ok a := rfl

/-- A successful `bind` splits into two successful halves. -/
theorem bind_eq_ok {x : Res α} {f : α → Res β} {r : β} (h : (x >>= f) = .ok r) :
    ∃ a, x = .ok a ∧ f a = .ok r := by
  cases x with
  | error e => cases h
  | ok a => exact ⟨a, rfl, h⟩

/-- A `bind` fails in its first half or in its second. -/
theorem bind_eq_error {x : Res α} {f : α → Res β} {e : Fault} (h : (x >>= f) = .error e) :
    x = .error e ∨ ∃ a, x = .ok a ∧ f a = .error e := by
  cases x with
  | error e' =>
      cases h
      exact Or.inl rfl
  | ok a => exact Or.inr ⟨a, rfl, h⟩

/-- What every round keeps, a loop over a list keeps. -/
theorem foldlM_invariant {f : β → α → Res β} {l : List α} (Inv : β → Prop)
    (h : ∀ b, ∀ a ∈ l, ∀ b', Inv b → f b a = .ok b' → Inv b') {b b' : β} (hb : Inv b)
    (hrun : l.foldlM f b = .ok b') : Inv b' := by
  induction l generalizing b with
  | nil =>
      cases hrun
      exact hb
  | cons a l ih =>
      rw [List.foldlM_cons] at hrun
      obtain ⟨b₁, hone, hrun⟩ := bind_eq_ok hrun
      obtain ⟨hhead, htail⟩ : (∀ b b', Inv b → f b a = .ok b' → Inv b') ∧
          ∀ b, ∀ a ∈ l, ∀ b', Inv b → f b a = .ok b' → Inv b' :=
        ⟨fun b => h b a List.mem_cons_self, fun b a ha => h b a (List.mem_cons_of_mem _ ha)⟩
      exact ih htail (hhead b b₁ hb hone) hrun

/-- A loop whose rounds do not get in each other's way returns if and only if every round would
return at the start. -/
theorem foldlM_returns_iff {f : β → α → Res β} (Inv : β → Prop) (Ready : β → α → Prop)
    (hone : ∀ b a, Inv b → ((∃ b', f b a = .ok b') ↔ Ready b a))
    (hkeep : ∀ b a b', Inv b → f b a = .ok b' → Inv b' ∧ ∀ a', a' ≠ a → (Ready b' a' ↔ Ready b a'))
    {l : List α} (hl : l.Nodup) {b : β} (hb : Inv b) :
    (∃ b', l.foldlM f b = .ok b') ↔ ∀ a ∈ l, Ready b a := by
  induction l generalizing b with
  | nil => exact iff_of_true ⟨b, rfl⟩ (by simp)
  | cons a l ih =>
      obtain ⟨hnot, hl⟩ := List.nodup_cons.mp hl
      rw [List.foldlM_cons, List.forall_mem_cons]
      constructor
      · rintro ⟨b', hrun⟩
        obtain ⟨b₁, hfirst, hrun⟩ := bind_eq_ok hrun
        obtain ⟨hb₁, hready⟩ := hkeep b a b₁ hb hfirst
        refine ⟨(hone b a hb).mp ⟨b₁, hfirst⟩, ?_⟩
        intro a' ha'
        exact (hready a' fun heq => hnot (heq ▸ ha')).mp ((ih hl hb₁).mp ⟨b', hrun⟩ a' ha')
      · rintro ⟨hfirst, hrest⟩
        obtain ⟨b₁, hfirst⟩ := (hone b a hb).mpr hfirst
        obtain ⟨hb₁, hready⟩ := hkeep b a b₁ hb hfirst
        rw [hfirst, ok_bind]
        exact (ih hl hb₁).mpr fun a' ha' =>
          (hready a' fun heq => hnot (heq ▸ ha')).mpr (hrest a' ha')

/-- What a program returns on a concrete input can be decided by running it. -/
instance decidableReturns (x : Res α) (C : α → Prop) [∀ a, Decidable (C a)] :
    Decidable (∃ a, x = .ok a ∧ C a) :=
  match x with
  | .ok a => decidable_of_iff (C a) (by simp)
  | .error _ => isFalse (by simp)

instance (priority := low) decidableFails (x : Res α) (e : Fault) : Decidable (x = .error e) :=
  match x with
  | .ok _ => isFalse (by simp)
  | .error e' => decidable_of_iff (e' = e) (by simp)

/-- The program does not run out of fuel: it returns, or it goes wrong in another way. -/
def Halts (x : Res α) : Prop := x ≠ .error .outOfFuel

theorem halts_ok (a : α) : Halts (.ok a : Res α) := by
  intro h
  cases h

theorem halts_error {e : Fault} (he : e ≠ .outOfFuel) : Halts (.error e : Res α) :=
  fun h => he (Except.error.inj h)

theorem Halts.bind {x : Res α} {f : α → Res β} (hx : Halts x)
    (hf : ∀ a, x = .ok a → Halts (f a)) : Halts (x >>= f) := by
  cases x with
  | error e => exact halts_error fun he => hx (congrArg Except.error he)
  | ok a => exact hf a rfl

theorem Halts.ite {c : Prop} [Decidable c] {x y : Res α} (hx : Halts x) (hy : Halts y) :
    Halts (if c then x else y) := by
  split
  · exact hx
  · exact hy

end Res

/-! ## Unsigned words

Values are natural numbers below `2 ^ 32` or `2 ^ 64`; the operations that can leave the range
are wrapped explicitly. -/

def u32 (n : Nat) : Nat := n % 2 ^ 32

def u64 (n : Nat) : Nat := n % 2 ^ 64

/-- `a - b` in `uint32_t`. -/
def subU32 (a b : Nat) : Nat := (a + 2 ^ 32 - b) % 2 ^ 32

/-- `a - b` in `uint64_t`. -/
def subU64 (a b : Nat) : Nat := (a + 2 ^ 64 - b) % 2 ^ 64

/-- The conversion of a signed value to `uint64_t`. -/
def u64OfInt (x : Int) : Nat := (x % 2 ^ 64).toNat

/-- The conversion to `int`. -/
def i32 (x : Int) : Int := (x + 2 ^ 31) % 2 ^ 32 - 2 ^ 31

/-- The result of an `int` operation; a fault when it leaves the range. -/
def checkedI32 (x : Int) : Res Int :=
  if -2 ^ 31 ≤ x ∧ x < 2 ^ 31 then .ok x else .error .overflow

/-- The result of an `int64_t` operation. -/
def checkedI64 (x : Int) : Res Int :=
  if -2 ^ 63 ≤ x ∧ x < 2 ^ 63 then .ok x else .error .overflow

theorem u32_of_lt {n : Nat} (h : n < 2 ^ 32) : u32 n = n := Nat.mod_eq_of_lt h

theorem u64_of_lt {n : Nat} (h : n < 2 ^ 64) : u64 n = n := Nat.mod_eq_of_lt h

theorem subU32_of_le {a b : Nat} (hb : b ≤ a) (ha : a < 2 ^ 32) : subU32 a b = a - b := by
  unfold subU32
  omega

theorem subU64_of_le {a b : Nat} (hb : b ≤ a) (ha : a < 2 ^ 64) : subU64 a b = a - b := by
  unfold subU64
  omega

theorem u64OfInt_natCast {n : Nat} (h : n < 2 ^ 64) : u64OfInt n = n := by
  unfold u64OfInt
  omega

theorem checkedI32_ok {x : Int} (hlo : -2 ^ 31 ≤ x) (hhi : x < 2 ^ 31) : checkedI32 x = .ok x :=
  if_pos ⟨hlo, hhi⟩

theorem checkedI32_overflow {x : Int} (h : 2 ^ 31 ≤ x) : checkedI32 x = .error .overflow :=
  if_neg fun hx => absurd hx.2 (Int.not_lt.mpr h)

theorem checkedI32_eq_ok {x c : Int} (h : checkedI32 x = .ok c) :
    c = x ∧ -2 ^ 31 ≤ x ∧ x < 2 ^ 31 := by
  unfold checkedI32 at h
  split at h
  · next hx =>
      cases h
      exact ⟨rfl, hx⟩
  · cases h

theorem checkedI64_ok_iff {x c : Int} :
    checkedI64 x = .ok c ↔ c = x ∧ -2 ^ 63 ≤ x ∧ x < 2 ^ 63 := by
  unfold checkedI64
  split
  · next hx =>
    rw [Except.ok.injEq]
    exact ⟨fun heq => ⟨heq.symm, hx⟩, fun h => h.1.symm⟩
  · next hx => exact iff_of_false (fun h => by cases h) fun h => hx h.2

/-! ## Blocks of memory -/

section Memory
variable {β : Type}

/-- `len` cells from offset `off` on. -/
def slice (l : List β) (off len : Nat) : List β := (l.drop off).take len

/-- `dst` with `src` written over the cells from `off` on. -/
def splice (dst : List β) (off : Nat) (src : List β) : List β :=
  dst.take off ++ src ++ dst.drop (off + src.length)

/-- Reading `len` cells at `off`; a fault when the range leaves the block. -/
def readMem (l : List β) (off len : Nat) : Res (List β) :=
  if off + len ≤ l.length then .ok (slice l off len) else .error .outOfBounds

/-- `memcpy(dst + off, src, src.length)`; a fault when the range leaves `dst`. -/
def memcpy (dst : List β) (off : Nat) (src : List β) : Res (List β) :=
  if off + src.length ≤ dst.length then .ok (splice dst off src) else .error .outOfBounds

/-- Reading one cell. -/
def readAt (l : List β) (i : Nat) : Res β :=
  match l[i]? with
  | some a => .ok a
  | none => .error .outOfBounds

theorem readAt_ok {l : List β} {i : Nat} (h : i < l.length) : ∃ a, readAt l i = .ok a := by
  rw [readAt, List.getElem?_eq_getElem h]
  exact ⟨_, rfl⟩

theorem readAt_eq_ok {l : List β} {i : Nat} {a : β} (h : readAt l i = .ok a) : l[i]? = some a := by
  rw [readAt] at h
  split at h
  · next hget =>
      cases h
      exact hget
  · cases h

theorem readMem_ok {l : List β} {off len : Nat} (h : off + len ≤ l.length) :
    readMem l off len = .ok (slice l off len) := if_pos h

theorem memcpy_ok {dst src : List β} {off : Nat} (h : off + src.length ≤ dst.length) :
    memcpy dst off src = .ok (splice dst off src) := if_pos h

theorem halts_readMem (l : List β) (off len : Nat) : Halts (readMem l off len) :=
  Halts.ite (halts_ok _) (halts_error (by decide))

theorem halts_memcpy (dst : List β) (off : Nat) (src : List β) : Halts (memcpy dst off src) :=
  Halts.ite (halts_ok _) (halts_error (by decide))

theorem length_slice {l : List β} {off len : Nat} (h : off + len ≤ l.length) :
    (slice l off len).length = len := by
  simp only [slice, List.length_take, List.length_drop]
  omega

theorem length_splice {dst src : List β} {off : Nat} (h : off + src.length ≤ dst.length) :
    (splice dst off src).length = dst.length := by
  simp only [splice, List.length_append, List.length_take, List.length_drop]
  omega

theorem take_slice (l : List β) (off : Nat) {m len : Nat} (h : m ≤ len) :
    (slice l off len).take m = slice l off m := by
  simp [slice, List.take_take, Nat.min_eq_left h]

theorem drop_slice (l : List β) (off m len : Nat) :
    (slice l off len).drop m = slice l (off + m) (len - m) := by
  simp [slice, List.drop_take, List.drop_drop]

@[simp] theorem slice_zero (l : List β) (off : Nat) : slice l off 0 = [] := by
  simp [slice]

/-- Writing right after a slice makes it longer by exactly what was written. -/
theorem slice_splice {dst src : List β} {lo off : Nat} (hlo : lo ≤ off)
    (h : off + src.length ≤ dst.length) :
    slice (splice dst off src) lo (off + src.length - lo) = slice dst lo (off - lo) ++ src := by
  have htake : (dst.take off).length = off := by
    rw [List.length_take]; omega
  have hdrop : (splice dst off src).drop lo =
      (dst.take off).drop lo ++ (src ++ dst.drop (off + src.length)) := by
    rw [splice, List.append_assoc, List.drop_append_of_le_length (by omega)]
  have hlen : ((dst.take off).drop lo).length = off - lo := by
    rw [List.length_drop, htake]
  have hsum : off + src.length - lo = ((dst.take off).drop lo ++ src).length := by
    rw [List.length_append, hlen]; omega
  rw [slice, hdrop, ← List.append_assoc, hsum, List.take_left, List.drop_take, slice]

end Memory

/-! ## Little-endian integers -/

/-- The `k` low bytes of `n`, least significant first. -/
def leBytes : Nat → Nat → List UInt8
  | 0, _ => []
  | k + 1, n => UInt8.ofNat (n % 256) :: leBytes k (n / 256)

def leNat : List UInt8 → Nat
  | [] => 0
  | b :: bs => b.toNat + 256 * leNat bs

@[simp] theorem length_leBytes (k n : Nat) : (leBytes k n).length = k := by
  induction k generalizing n with
  | zero => rfl
  | succ k ih => simp [leBytes, ih]

/-- Reading back the low bytes gives the number modulo the width. -/
theorem leNat_leBytes (k n : Nat) : leNat (leBytes k n) = n % 256 ^ k := by
  induction k generalizing n with
  | zero => simp [leBytes, leNat, Nat.mod_one]
  | succ k ih =>
      have hb : (UInt8.ofNat (n % 256)).toNat = n % 256 := by
        rw [UInt8.toNat_ofNat']; omega
      rw [leBytes, leNat, ih, hb, pow_succ', Nat.mod_mul]

theorem leNat_lt (bs : List UInt8) : leNat bs < 256 ^ bs.length := by
  induction bs with
  | nil => decide
  | cons b bs ih =>
      have hb := b.toNat_lt
      rw [leNat, List.length_cons, pow_succ']
      omega

end Unp.Machine
