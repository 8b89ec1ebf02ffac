import Unp.Buffer.Queue

/-!
# `append_printf`

The text is written by `vsnprintf` straight into the free space of a chain. If it does not fit, it is
cut there, more space is asked for and the text is written again. What `vsnprintf` makes of the
format and its arguments is a parameter: a negative result, or a text.

In a buffer with bytes the second attempt succeeds, unless the first one was in a new chain: that one
is empty, and `free_trailing_empty_chains` goes wrong when it drops it. In an empty buffer the space is
made in front, by `push_front`, and the chain that comes back is the last, which is the same as before.
-/

namespace Unp.Reactor
namespace Buffer

open Unp.Machine Unp.LinkedChain Unp.Run BufferChain

/-! ## The code -/

abbrev Formatted := Except Int (List Byte)

/-- What `vsnprintf` writes into `size` bytes: as much of the text as fits, and a zero byte. -/
def printed (text : List Byte) (size : Nat) : List Byte :=
  if size = 0 then [] else text.take (size - 1) ++ [0]

/-- The loop, with the chain at the address `a`. -/
def printfLoop (al : Allocator Addr) (formatted : Formatted) :
    Nat → Buffer → Addr → Res (Int × Buffer)
  | 0, _, _ => .error .outOfFuel
  | fuel + 1, b, a => do
      let c ← b.getChain a
      match formatted with
      | .error vs => pure (vs, b)
      | .ok text => do
          let buffer ← memcpy c.buffer c.off (printed text c.chainFreeSpace)
          if maximumChainSize < text.length then pure (-1, b.setChain a { c with buffer })
          else if text.length < c.chainFreeSpace then
            pure (text.length,
              { b.setChain a { c with buffer, off := u32 (c.off + text.length) } with
                totalLen := u64 (b.totalLen + text.length), lastChainWithData := some a })
          else do
            let (a, b) ← (b.setChain a { c with buffer }).expandIfNeeded al (u32 (text.length + 1))
            printfLoop al formatted fuel b a

/-- `append_printf(const char* fmt, ...)`. -/
def appendPrintf (al : Allocator Addr) (b : Buffer) (fuel : Nat) (fmt : Option Formatted) :
    Res (Int × Buffer) :=
  match fmt with
  | none => pure (-1, b)
  | some formatted => do
      let (a, b) ← b.expandIfNeeded al 64
      printfLoop al formatted fuel b a

/-! ## Writing into the free space -/

theorem length_printed_le (text : List Byte) (size : Nat) : (printed text size).length ≤ size := by
  rw [printed]
  split
  · exact Nat.zero_le _
  · rw [List.length_append, List.length_take, List.length_singleton]
    omega

/-- A chain after something was written behind its data, of which the first `k` bytes were made
data. -/
def scribbled (c : BufferChain) (src : List Byte) (k : Nat) : BufferChain :=
  { c with buffer := splice c.buffer c.off src, off := c.off + k }

theorem scribbled_grown {c : BufferChain} {src : List Byte} {k : Nat} (h : c.Ok)
    (hroom : c.off + src.length ≤ c.capacity) (hk : k ≤ src.length) :
    Grown c (scribbled c src k) (src.take k) where
  ok :=
    { misalign_le := Nat.le_trans h.misalign_le (Nat.le_add_right _ _)
      off_le := by
        show c.off + k ≤ c.capacity
        omega
      length_buffer := by
        show (splice c.buffer c.off src).length = c.capacity
        rw [length_splice (by rw [h.length_buffer]; exact hroom), h.length_buffer]
      capacity_lt := h.capacity_lt }
  data_eq := by
    have hle := h.misalign_le
    have hlen : (slice c.buffer c.misalign (c.off - c.misalign)).length = c.off - c.misalign :=
      h.length_data
    have hslice := slice_splice h.misalign_le
      (by rw [h.length_buffer]; exact hroom : c.off + src.length ≤ c.buffer.length)
    show slice (splice c.buffer c.off src) c.misalign (c.off + k - c.misalign) = _
    rw [← take_slice _ _ (by omega : c.off + k - c.misalign ≤ c.off + src.length - c.misalign),
      hslice, List.take_append, hlen, List.take_of_length_le (by omega), BufferChain.data,
      show c.off + k - c.misalign - (c.off - c.misalign) = k by omega]
  next_eq := rfl
  parent_eq := rfl

variable {al : Allocator Addr} {b : Buffer} {a : Addr} {c : BufferChain} {text : List Byte}

theorem memcpy_printed (h : c.Ok) (text : List Byte) :
    memcpy c.buffer c.off (printed text c.chainFreeSpace) =
      .ok (splice c.buffer c.off (printed text c.chainFreeSpace)) := by
  have hle := length_printed_le text c.chainFreeSpace
  have hfree := h.chainFreeSpace_eq
  have hoff := h.off_le
  have hblock := h.length_buffer
  exact memcpy_ok (by omega)

/-- The text and its zero byte fit. -/
theorem printfLoop_fits (fuel : Nat) (hget : b.getChain a = .ok c) (hok : c.Ok)
    (hfits : c.off + text.length < c.capacity) :
    printfLoop al (.ok text) (fuel + 1) b a = .ok ((text.length : Int),
      { b.setChain a (scribbled c (text ++ [0]) text.length) with
        totalLen := u64 (b.totalLen + text.length), lastChainWithData := some a }) := by
  have hcap := hok.capacity_lt
  have hfree : c.chainFreeSpace = c.capacity - c.off := hok.chainFreeSpace_eq
  have hlong : ¬ maximumChainSize < text.length := by
    unfold maximumChainSize
    omega
  have hprinted : printed text c.chainFreeSpace = text ++ [0] := by
    rw [printed, if_neg (by omega), List.take_of_length_le (by omega)]
  rw [printfLoop, hget, ok_bind]
  dsimp only
  rw [memcpy_printed hok, ok_bind, if_neg hlong, if_pos (by omega), hprinted,
    u32_of_lt (by omega : c.off + text.length < 2 ^ 32), pure_eq_ok]
  rfl

/-- They do not: what was written is no data, and the loop starts again with the chain that
`expand_if_needed` returns. -/
theorem printfLoop_retries (fuel : Nat) (hget : b.getChain a = .ok c) (hok : c.Ok)
    (hlen : text.length < 2 ^ 31 - 1) (hfits : ¬ c.off + text.length < c.capacity) :
    printfLoop al (.ok text) (fuel + 1) b a =
      (b.setChain a (scribbled c (printed text c.chainFreeSpace) 0)).expandIfNeeded al
        (text.length + 1) >>= fun r => printfLoop al (.ok text) fuel r.2 r.1 := by
  have hoff := hok.off_le
  have hfree : c.chainFreeSpace = c.capacity - c.off := hok.chainFreeSpace_eq
  have hlong : ¬ maximumChainSize < text.length := by
    unfold maximumChainSize
    omega
  rw [printfLoop, hget, ok_bind]
  dsimp only
  rw [memcpy_printed hok, ok_bind, if_neg hlong, if_neg (by omega),
    u32_of_lt (by omega : text.length + 1 < 2 ^ 32)]
  rfl

/-- What was cut changes no byte of the data. -/
theorem scribbled_printed_grown (h : c.Ok) (text : List Byte) :
    Grown c (scribbled c (printed text c.chainFreeSpace) 0) [] := by
  have hle := length_printed_le text c.chainFreeSpace
  have hfree := h.chainFreeSpace_eq
  have hoff := h.off_le
  have hgrown := scribbled_grown (k := 0) h
    (by omega : c.off + (printed text c.chainFreeSpace).length ≤ c.capacity) (Nat.zero_le _)
  rwa [List.take_zero] at hgrown

/-! ## A buffer with bytes -/

theorem printfLoop_roomy (fuel : Nat) {init : List (Addr × BufferChain)} {n : Nat}
    (h : Roomy b init a c n) (hfits : c.off + text.length < c.capacity) (hne : c.data ++ text ≠ [])
    (hlt : b.totalLen + text.length < 2 ^ 64) :
    ∃ b', printfLoop al (.ok text) (fuel + 1) b a = .ok ((text.length : Int), b') ∧
      b'.WellFormed ∧ b'.content = b.content ++ text := by
  have hroom : c.off + (text ++ [0]).length ≤ c.capacity := by
    rw [List.length_append, List.length_singleton]
    omega
  have hgrown := scribbled_grown (k := text.length) h.ok hroom (by simp)
  rw [List.take_left] at hgrown
  obtain ⟨hwf, hcontent⟩ := h.grow hgrown (by rwa [hgrown.data_eq]) hlt
  exact ⟨_, printfLoop_fits fuel (getChain_of_roomy h) h.ok hfits,
    by rwa [u64_of_lt hlt], by rwa [u64_of_lt hlt]⟩

/-- What was cut in the last chain with data does not matter. -/
theorem Roomy.wellFormed_scribbled {init : List (Addr × BufferChain)} {n : Nat}
    (h : Roomy b init a c n) (hlast : b.lastChainWithData = some a) (hne : c.data ≠ [])
    (hlt : b.totalLen < 2 ^ 64) (text : List Byte) :
    (b.setChain a (scribbled c (printed text c.chainFreeSpace) 0)).WellFormed ∧
      (b.setChain a (scribbled c (printed text c.chainFreeSpace) 0)).content = b.content := by
  have hgrown := scribbled_printed_grown h.ok text
  obtain ⟨hwf, hcontent⟩ := h.grow hgrown (by rwa [hgrown.data_eq, List.append_nil]) hlt
  have hsame : ({ b.setChain a (scribbled c (printed text c.chainFreeSpace) 0) with
      totalLen := b.totalLen + ([] : List Byte).length, lastChainWithData := some a } : Buffer) =
      b.setChain a (scribbled c (printed text c.chainFreeSpace) 0) := by
    rw [← hlast]
    rfl
  rw [hsame] at hwf hcontent
  exact ⟨hwf, by rw [hcontent, List.append_nil]⟩

/-- The second round. -/
theorem printfLoop_second (fuel : Nat) (h : b.WellFormed) (hne : text ≠ [])
    (hlen : text.length < 2 ^ 31 - 1) (hlt : b.totalLen + text.length < 2 ^ 64) :
    ∃ b', (b.expandIfNeeded al (text.length + 1) >>= fun r =>
        printfLoop al (.ok text) (fuel + 1) r.2 r.1) = .ok ((text.length : Int), b') ∧
      b'.WellFormed ∧ b'.content = b.content ++ text := by
  obtain ⟨a, b₁, init, c, hexpand, hroomy, hsame⟩ :=
    expandIfNeeded_spec al h (by omega : 1 ≤ text.length + 1) (by omega)
  have hroom := hroomy.room
  obtain ⟨b', hrun, hwf, hcontent⟩ := @printfLoop_roomy al b₁ a c text fuel init _ hroomy (by omega)
    (by simp [hne]) (by rw [hsame.total_eq]; exact hlt)
  refine ⟨b', ?_, hwf, by rw [hcontent, hsame.content_eq]⟩
  rw [hexpand, ok_bind, hrun]

/-- The last chain `lc` is given an empty one to point to. -/
def withFresh (b : Buffer) (init : List (Addr × BufferChain)) (l : Addr) (lc : BufferChain)
    (a : Addr) (fresh : BufferChain) : Buffer :=
  { b with chains := init ++ [(l, { lc with next := some a })] ++ [(a, fresh)] }

/-- There is an empty chain to free. -/
theorem freeTrailing_withFresh (h : b.WellFormed) {init : List (Addr × BufferChain)} {l : Addr}
    {lc : BufferChain} (hsnoc : b.chains = init ++ [(l, lc)]) (fresh : BufferChain) :
    (withFresh b init l lc a fresh).freeTrailingEmptyChains = .error .dangling := by
  have hc : b.chains = init ++ (l, lc) :: [] := hsnoc
  have hnotin : l ∉ addrs init := not_mem_init (hsnoc ▸ h.nodup)
  have hlast : (withFresh b init l lc a fresh).lastChainWithData = some l := by
    show b.lastChainWithData = some l
    rw [h.last_eq, hsnoc, lastAddr_snoc]
  have haddrs : addrs (withFresh b init l lc a fresh).chains = addrs init ++ [l, a] := by
    simp [withFresh, addrs]
  have hidx : (addrs (withFresh b init l lc a fresh).chains).idxOf l = init.length := by
    rw [haddrs, List.idxOf_append_of_notMem hnotin]
    simp [addrs]
  have hmem : l ∈ addrs (withFresh b init l lc a fresh).chains := by
    rw [haddrs]
    simp
  have hbehind : init.length + 1 < (withFresh b init l lc a fresh).chains.length := by
    simp [withFresh]
  have hzero : ¬ (withFresh b init l lc a fresh).totalLen = 0 := h.total_ne_zero hc
  rw [freeTrailingEmptyChains, if_neg hzero, hlast]
  dsimp only
  rw [if_pos hmem, hidx, if_pos hbehind]

/-- A larger chain is asked for behind an empty one that is too small as well. -/
theorem expandIfNeeded_withFresh (al : Allocator Addr) (h : b.WellFormed)
    {init : List (Addr × BufferChain)} {l : Addr} {lc : BufferChain}
    (hsnoc : b.chains = init ++ [(l, lc)]) (ha : a ∉ addrs b.chains) {fresh : BufferChain} {m n : Nat}
    (hpush : Pushes lc m) (hmn : m ≤ n) (hsmall : ¬ n < fresh.chainFreeSpace) :
    (withFresh b init l lc a fresh).expandIfNeeded al n = .error .dangling := by
  have hc : b.chains = init ++ (l, lc) :: [] := hsnoc
  have hnotin : l ∉ addrs init := not_mem_init (hsnoc ▸ h.nodup)
  have hlast : (withFresh b init l lc a fresh).lastChainWithData = some l := by
    rw [← lastAddr_snoc init (l, lc), ← hsnoc, ← h.last_eq]
    rfl
  obtain ⟨lc₂, hlc₂⟩ : ∃ lc₂ : BufferChain, lc₂ = { lc with next := some a } := ⟨_, rfl⟩
  have hget : (withFresh b init l lc a fresh).getChain l = .ok lc₂ := by
    simp [getChain, withFresh, List.append_assoc, deref_append hnotin, hlc₂]
  have hgetFresh : (withFresh b init l lc a fresh).getChain a = .ok fresh := by
    have hfresh : a ∉ addrs (init ++ [(l, ({ lc with next := some a } : BufferChain))]) := by
      rw [hsnoc] at ha
      simpa [addrs] using ha
    simp only [getChain, withFresh, deref_snoc hfresh]
  have hpush₂ : Pushes lc₂ m := hlc₂ ▸ hpush
  have hfull : ¬ n ≤ lc₂.chainFreeSpace := by
    have := hpush₂.1
    omega
  have hworth : lc₂.chainFreeSpace < lc₂.capacity / 8 ∨ maximumSizeWhenExpand < lc₂.off ∨
      subU32 maximumChainSize lc₂.off ≤ n :=
    hpush₂.2.imp id (Or.imp id fun hmax => Nat.le_trans hmax hmn)
  have hnext : lc₂.next = some a := by rw [hlc₂]
  have hzero : ¬ (withFresh b init l lc a fresh).totalLen = 0 := h.total_ne_zero hc
  rw [expandIfNeeded, if_neg hzero, hlast, nonNull, ok_bind, hget, ok_bind, if_neg hfull,
    if_pos hworth, hnext]
  dsimp only
  rw [hgetFresh, ok_bind, if_neg hsmall, pushNewChain, freeTrailing_withFresh h hsnoc, error_bind]

theorem pushBack_withFresh (h : b.WellFormed) {init : List (Addr × BufferChain)} {l : Addr}
    {lc : BufferChain} (hsnoc : b.chains = init ++ [(l, lc)]) (fresh : BufferChain)
    (fresh' : BufferChain) :
    (b.pushBack al fresh).setChain (al.alloc (addrs b.chains)) fresh' =
      withFresh b init l lc (al.alloc (addrs b.chains)) fresh' := by
  have hnotin : l ∉ addrs init := not_mem_init (hsnoc ▸ h.nodup)
  have hlast : lastAddr b.chains = some l := by rw [hsnoc, lastAddr_snoc]
  have hfresh : al.alloc (addrs b.chains) ∉
      addrs (init ++ [(l, ({ lc with next := some (al.alloc (addrs b.chains)) } : BufferChain))]) := by
    have hnew := al.alloc_fresh (addrs b.chains)
    rw [hsnoc] at hnew ⊢
    simpa [addrs] using hnew
  have hmod : modifyAt l (fun c => { c with next := some (al.alloc (addrs b.chains)) }) b.chains =
      init ++ [(l, { lc with next := some (al.alloc (addrs b.chains)) })] := by
    conv_lhs => rw [hsnoc, modifyAt_snoc hnotin]
    rw [hsnoc]
  simp only [pushBack, hlast, hmod, setChain, withFresh, modifyAt_snoc hfresh]

/-- The chain for the text is the last chain with data: it is the old last chain, or its copy. -/
theorem printfLoop_last {b₁ : Buffer} {init : List (Addr × BufferChain)} (h : Roomy b₁ init a c 64)
    (hsame : SameBytes b b₁) (hlast : b₁.lastChainWithData = some a) (hne : c.data ≠ [])
    (hlen : text.length < 2 ^ 31 - 1) (hlt : b.totalLen + text.length < 2 ^ 64) :
    ∃ b', printfLoop al (.ok text) 2 b₁ a = .ok ((text.length : Int), b') ∧
      b'.WellFormed ∧ b'.content = b.content ++ text := by
  have hroom := h.room
  rw [← hsame.total_eq] at hlt
  rw [← hsame.content_eq]
  by_cases hfits : c.off + text.length < c.capacity
  · exact printfLoop_roomy 1 h hfits (by simp [hne]) hlt
  · have htext : text ≠ [] := by
      rintro rfl
      simp only [List.length_nil] at hfits
      omega
    obtain ⟨hwf, hcontent⟩ := h.wellFormed_scribbled hlast hne (by omega) text
    rw [printfLoop_retries 1 (getChain_of_roomy h) h.ok hlen hfits, ← hcontent]
    exact printfLoop_second 0 hwf htext hlen hlt

theorem capacity_new_64 (parent : Option Addr) : (new parent 64).capacity = 1024 := by
  rw [new_capacity parent (by decide)]
  decide +kernel

/-- The text goes into a chain of its own, if it fits there. -/
theorem printfLoop_pushed (h : b.WellFormed) (hne : text ≠ []) (hfits : text.length < 1024)
    (hlt : b.totalLen + text.length < 2 ^ 64) :
    ∃ b', printfLoop al (.ok text) 2 (b.pushBack al (new (some b.self) 64))
        (al.alloc (addrs b.chains)) = .ok ((text.length : Int), b') ∧
      b'.WellFormed ∧ b'.content = b.content ++ text := by
  obtain ⟨init₁, hroomy, hsame⟩ := pushBack_roomy al h (n := 64) (by decide) (by decide)
  have hcap := capacity_new_64 (some b.self)
  have hoff : (new (some b.self) 64).off = 0 := rfl
  rw [← hsame.content_eq]
  exact printfLoop_roomy 1 hroomy (by omega) (by simp [hne]) (by rw [hsame.total_eq]; exact hlt)

/-- If it does not, the second round asks for a larger chain while the first one is still empty. -/
theorem printfLoop_pushed_full (h : b.WellFormed) {init : List (Addr × BufferChain)} {l : Addr}
    {lc : BufferChain} (hsnoc : b.chains = init ++ [(l, lc)]) (hpush : Pushes lc 64)
    (hfull : 1024 ≤ text.length) (hlen : text.length < 2 ^ 31 - 1) (fuel : Nat) :
    printfLoop al (.ok text) (fuel + 1) (b.pushBack al (new (some b.self) 64))
        (al.alloc (addrs b.chains)) = .error .dangling := by
  obtain ⟨init₁, hroomy, -⟩ := pushBack_roomy al h (n := 64) (by decide) (by decide)
  have hcap := capacity_new_64 (some b.self)
  have hoff : (new (some b.self) 64).off = 0 := rfl
  have hsmall : ∀ src, (scribbled (new (some b.self) 64) src 0).chainFreeSpace = 1024 := by
    intro src
    show subU32 (new (some b.self) 64).capacity 0 = 1024
    rw [hcap]
    rfl
  rw [printfLoop_retries fuel (getChain_of_roomy hroomy) hroomy.ok hlen (by omega),
    pushBack_withFresh h hsnoc, expandIfNeeded_withFresh al h hsnoc (al.alloc_fresh _) hpush
      (by omega) (by rw [hsmall]; omega), error_bind]

/-! ## An empty buffer -/

/-- A text of no bytes in a fresh chain leaves that chain empty. -/
theorem printfLoop_nothing {init : List (Addr × BufferChain)} {n : Nat} (h : Roomy b init a c n)
    (hoff : c.off = 0) (hn : 0 < n) {fuel : Nat} {ret : Int} {b' : Buffer}
    (hrun : printfLoop al (.ok []) fuel b a = .ok (ret, b')) : ¬ b'.WellFormed := by
  cases fuel with
  | zero => cases hrun
  | succ fuel =>
      have hroom := h.room
      rw [printfLoop_fits fuel (getChain_of_roomy h) h.ok (by simp; omega)] at hrun
      cases hrun
      intro hwf
      have hnotin : a ∉ addrs init := not_mem_init (h.chains_eq ▸ h.nodup)
      have hgood := hwf.good (a, scribbled c ([] ++ [0]) 0) (by
        simp only [setChain, h.chains_eq, modifyAt_snoc hnotin]
        simp)
      have hlt : (scribbled c ([] ++ [0]) 0).misalign < c.off + 0 := hgood.misalign_lt
      omega

/-- The loop in an empty buffer whose last chain is too small for the text. -/
structure Stuck (b : Buffer) (a : Addr) (len : Nat) : Prop where
  total_eq : b.totalLen = 0
  back_eq : b.back = .ok a
  full : ∃ c, b.getChain a = .ok c ∧ c.Ok ∧ ¬ c.off + len < c.capacity

/-- Every round puts a chain in front and comes back to the last one. -/
theorem Stuck.next (al : Allocator Addr) (h : Stuck b a text.length) (fuel : Nat)
    (hlen : text.length < 2 ^ 31 - 1) :
    ∃ b', Stuck b' a text.length ∧
      printfLoop al (.ok text) (fuel + 1) b a = printfLoop al (.ok text) fuel b' a := by
  obtain ⟨c, hget, hok, hfull⟩ := h.full
  have hmem : a ∈ addrs b.chains := by
    have hback := h.back_eq
    rw [back] at hback
    split at hback
    · next l hl =>
        cases hback
        exact List.mem_of_getLast? hl
    · cases hback
  obtain ⟨b₁, hb₁⟩ : ∃ b₁, b₁ = b.setChain a (scribbled c (printed text c.chainFreeSpace) 0) :=
    ⟨_, rfl⟩
  have haddrs : addrs b₁.chains = addrs b.chains := by
    rw [hb₁, setChain]
    simp
  obtain ⟨b₂, hb₂⟩ : ∃ b₂, b₂ = b₁.pushFront al (new (some b₁.self) (text.length + 1)) := ⟨_, rfl⟩
  have hback₂ : b₂.back = .ok a := by
    have hlast : lastAddr b₂.chains = lastAddr b.chains := by
      rw [hb₂, pushFront, lastAddr_cons_of_ne_nil, lastAddr, haddrs, lastAddr]
      intro hnil
      rw [← haddrs, hnil] at hmem
      cases hmem
    have hback := h.back_eq
    rw [back] at hback ⊢
    rw [hlast]
    exact hback
  have hget₂ : b₂.getChain a = .ok (scribbled c (printed text c.chainFreeSpace) 0) := by
    have hne : al.alloc (addrs b₁.chains) ≠ a := by
      rintro rfl
      exact al.alloc_fresh _ (haddrs ▸ hmem)
    rw [getChain] at hget ⊢
    rw [hb₂, pushFront, deref_cons_of_ne hne, hb₁, setChain, deref_modifyAt]
    split at hget
    · next hfound =>
        rw [hfound]
        rfl
    · cases hget
  refine ⟨b₂, ⟨?_, hback₂, _, hget₂, (scribbled_printed_grown hok text).ok, hfull⟩, ?_⟩
  · rw [hb₂, hb₁]
    exact h.total_eq
  · have hzero : b₁.totalLen = 0 := by rw [hb₁]; exact h.total_eq
    rw [printfLoop_retries fuel hget hok hlen hfull, ← hb₁, expandIfNeeded, if_pos hzero]
    dsimp only
    rw [← hb₂, hback₂, ok_bind, pure_eq_ok, ok_bind]

/-- **No fuel is enough** for a loop that is stuck. -/
theorem Stuck.outOfFuel (h : Stuck b a text.length) (hlen : text.length < 2 ^ 31 - 1) (fuel : Nat) :
    printfLoop al (.ok text) fuel b a = .error .outOfFuel := by
  induction fuel generalizing b with
  | zero => rfl
  | succ fuel ih =>
      obtain ⟨b', hstuck, hstep⟩ := h.next al fuel hlen
      rw [hstep, ih hstuck]

/-! ## When `append_printf` appends -/

/-- The call returns the length of the text, has appended it, and has kept the invariant. -/
def Prints (al : Allocator Addr) (b : Buffer) (text : List Byte) : Prop :=
  ∃ fuel b', b.appendPrintf al fuel (some (.ok text)) = .ok ((text.length : Int), b') ∧
    b'.WellFormed ∧ b'.content = b.content ++ text

/-- A text that goes into a new chain has to fit there, and must not be empty: in an empty buffer, and
in one whose last chain is left alone for a new one when 64 bytes are asked for. -/
def TakesText (b : Buffer) (len : Nat) : Prop :=
  if b.totalLen = 0 then 0 < len ∧ len < 1024
  else ∀ init l lc, b.chains = init ++ [(l, lc)] → Pushes lc 64 → 0 < len ∧ len < 1024

theorem appendPrintf_eq {b₁ : Buffer} (hexpand : b.expandIfNeeded al 64 = .ok (a, b₁))
    (text : List Byte) (fuel : Nat) :
    b.appendPrintf al fuel (some (.ok text)) = printfLoop al (.ok text) fuel b₁ a := by
  rw [appendPrintf]
  dsimp only
  rw [hexpand, ok_bind]

/-- The first chain of an empty buffer is the last one for ever. -/
theorem stuck_first (al : Allocator Addr) (h : b.WellFormed) (h0 : b.totalLen = 0) {len : Nat}
    (hlen : 1024 ≤ len) :
    Stuck (b.pushBack al (new (some b.self) 64)) (al.alloc (addrs b.chains)) len := by
  obtain ⟨init, hroomy, hsame⟩ := pushBack_roomy al h (n := 64) (by decide) (by decide)
  have hcap := capacity_new_64 (some b.self)
  have hoff : (new (some b.self) 64).off = 0 := rfl
  exact ⟨hsame.total_eq.trans h0, back_of_roomy hroomy, _, getChain_of_roomy hroomy, hroomy.ok,
    by omega⟩

/-- A kilobyte for an empty buffer: the call does not return. Nothing for an empty buffer: an empty
chain is left. -/
theorem appendPrintf_empty :
    (∀ fuel, (empty 0).appendPrintf .succMax fuel (some (.ok (List.replicate 1024 97))) =
      .error .outOfFuel) ∧
    ∃ r, (empty 0).appendPrintf .succMax 1 (some (.ok [])) = .ok r ∧ r.1 = 0 ∧
      r.2.chains.map (fun p => p.2.size) = [0] := by
  constructor
  · intro fuel
    have hlen : (List.replicate 1024 (97 : Byte)).length = 1024 := List.length_replicate
    have hexpand : (empty 0).expandIfNeeded .succMax 64 = .ok
        (Allocator.succMax.alloc (addrs (empty 0).chains),
          (empty 0).pushBack .succMax (new (some 0) 64)) := by decide +kernel
    rw [appendPrintf_eq hexpand]
    exact (stuck_first .succMax (empty_wellFormed 0) rfl (by omega)).outOfFuel (by omega) fuel
  · decide +kernel

/-- **When `append_printf` appends.** Otherwise it does not return, goes wrong, or leaves an empty
chain. -/
theorem prints_iff (al : Allocator Addr) {b : Buffer} {text : List Byte} (h : b.WellFormed)
    (hlen : text.length < 2 ^ 31 - 1) (hlt : b.totalLen + text.length < 2 ^ 64) :
    b.Prints al text ↔ b.TakesText text.length := by
  obtain ⟨a, b₁, hexpand, hexpanded⟩ := expandIfNeeded_expanded al h (n := 64) (by decide)
  obtain ⟨init₁, hroomy, hsame⟩ := pushBack_roomy al h (n := 64) (by decide) (by decide)
  have hcall := appendPrintf_eq hexpand text
  have hprints : (∃ b', printfLoop al (.ok text) 2 b₁ a = .ok ((text.length : Int), b') ∧
      b'.WellFormed ∧ b'.content = b.content ++ text) → b.Prints al text := by
    rintro ⟨b', hrun, hwf, hcontent⟩
    exact ⟨2, b', by rw [hcall, hrun], hwf, hcontent⟩
  have hnothing : b₁ = b.pushBack al (new (some b.self) 64) → a = al.alloc (addrs b.chains) →
      text = [] → ¬ b.Prints al text := by
    rintro rfl rfl rfl ⟨fuel, b', hrun, hwf, -⟩
    exact printfLoop_nothing hroomy rfl (by decide) ((hcall fuel).symm.trans hrun) hwf
  rw [TakesText]
  cases hexpanded with
  | first h0 =>
      rw [if_pos h0]
      by_cases hnil : text = []
      · exact iff_of_false (hnothing rfl rfl hnil) (by simp [hnil])
      · have hpos := List.length_pos_of_ne_nil hnil
        by_cases hsmall : text.length < 1024
        · refine iff_of_true (hprints ?_) ⟨hpos, hsmall⟩
          rw [← hsame.content_eq]
          refine printfLoop_roomy 1 hroomy ?_ (by simp [hnil]) (by rw [hsame.total_eq]; exact hlt)
          rw [capacity_new_64]
          exact (Nat.zero_add _).symm ▸ hsmall
        · refine iff_of_false ?_ fun hcond => hsmall hcond.2
          rintro ⟨fuel, b', hrun, -⟩
          rw [hcall, (stuck_first al h h0 (Nat.le_of_not_lt hsmall)).outOfFuel hlen] at hrun
          cases hrun
  | @inPlace init _ lc hsnoc hroom =>
      have hgood : GoodNode (a, lc) := h.good _ (by rw [hsnoc]; simp)
      have hne : lc.data ≠ [] := List.length_pos_iff.mp hgood.length_data_pos
      rw [if_neg (h.total_ne_zero hsnoc)]
      refine iff_of_true (hprints ?_) ?_
      · exact printfLoop_last (h.roomy hsnoc hroom) ⟨rfl, rfl, rfl⟩
          (by rw [h.last_eq, hsnoc, lastAddr_snoc]) hne hlen hlt
      · intro init' l' lc' hsnoc' hpush
        obtain ⟨-, heq⟩ := List.append_inj' (hsnoc.symm.trans hsnoc') rfl
        cases heq
        exact absurd hpush.1 (Nat.not_lt.mpr hroom)
  | @pushed init l lc hsnoc hpush =>
      rw [if_neg (h.total_ne_zero hsnoc)]
      have hcond : (∀ init l lc, b.chains = init ++ [(l, lc)] → Pushes lc 64 →
          0 < text.length ∧ text.length < 1024) ↔ 0 < text.length ∧ text.length < 1024 :=
        ⟨fun hall => hall init l lc hsnoc hpush, fun hfit _ _ _ _ _ => hfit⟩
      rw [hcond]
      by_cases hnil : text = []
      · exact iff_of_false (hnothing rfl rfl hnil) (by simp [hnil])
      · have hpos := List.length_pos_of_ne_nil hnil
        by_cases hsmall : text.length < 1024
        · exact iff_of_true (hprints (printfLoop_pushed h hnil hsmall hlt)) ⟨hpos, hsmall⟩
        · refine iff_of_false ?_ fun hfit => hsmall hfit.2
          rintro ⟨fuel, b', hrun, -⟩
          rw [hcall] at hrun
          cases fuel with
          | zero => cases hrun
          | succ fuel =>
              rw [printfLoop_pushed_full h hsnoc hpush (Nat.le_of_not_lt hsmall) hlen] at hrun
              cases hrun
  | @resized init init' l _ lc c _ hsnoc _ hkeep hroomy' hsame' hlast hdata _ =>
      have hgood : GoodNode (l, lc) := h.good _ (by rw [hsnoc]; simp)
      have hne : c.data ≠ [] := by
        rw [hdata]
        exact List.length_pos_iff.mp hgood.length_data_pos
      rw [if_neg (h.total_ne_zero hsnoc)]
      refine iff_of_true (hprints (printfLoop_last hroomy' hsame' hlast hne hlen hlt)) ?_
      intro init₂ l₂ lc₂ hsnoc₂ hpush
      obtain ⟨-, heq⟩ := List.append_inj' (hsnoc.symm.trans hsnoc₂) rfl
      cases heq
      exact absurd hpush hkeep

/-- Two kilobytes for a buffer with bytes. -/
theorem prints_iff_twoChains :
    ∃ history b, run Op.step Op.twoChainCalls (empty 0) = .ok (history, b) ∧
      (b.Prints .succMax (List.replicate 2048 97) ↔
        b.TakesText (List.replicate 2048 (97 : Byte)).length) := by
  obtain ⟨history, b, hrun, hwf, -, -, hcontent⟩ := Op.twoChainCalls_run
  have htotal : b.totalLen = 3 := by
    rw [hwf.total_eq, hcontent]
    rfl
  have hlen : (List.replicate 2048 (97 : Byte)).length = 2048 := List.length_replicate
  exact ⟨history, b, hrun, prints_iff .succMax hwf (by omega) (by omega)⟩

end Buffer
end Unp.Reactor
