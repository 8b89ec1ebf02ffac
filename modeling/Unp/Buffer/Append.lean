import Unp.Buffer.Invariant

/-!
# Making room and appending

`expand_if_needed` has four ways to make room (a first chain, the space behind the last chain, a
new chain, a larger copy of the last chain): `Expanded`. `expandIfNeeded_spec` says what they have in
common: the result is `Roomy` and nothing else has changed. Each `append` is then one use of
`Roomy.grow`.
-/

namespace Unp.Reactor
namespace Buffer

open Unp.Machine Unp.LinkedChain BufferChain

/-! ## Adding a node at the end -/

theorem nodup_snoc {l : List (Addr × BufferChain)} {a : Addr} (h : (addrs l).Nodup)
    (ha : a ∉ addrs l) {init : List (Addr × BufferChain)} (hinit : addrs init = addrs l)
    (c : BufferChain) : (addrs (init ++ [(a, c)])).Nodup := by
  rw [addrs_append, hinit]
  exact List.nodup_append'.mpr ⟨h, by simp, by simpa using ha⟩

/-- `push_back` relinks the previous last node, whatever its pointer was before. -/
theorem pushBack_spec (al : Allocator Addr) {b : Buffer} (chain : BufferChain)
    {e : Option Addr} (hnd : (addrs b.chains).Nodup)
    (hlink : LinkedTo BufferChain.next b.chains e) (hgood : ∀ p ∈ b.chains, GoodNode p)
    (hnext : chain.next = none) :
    ∃ init, (b.pushBack al chain).chains = init ++ [(al.alloc (addrs b.chains), chain)] ∧
      addrs init = addrs b.chains ∧
      LinkedTo BufferChain.next init (some (al.alloc (addrs b.chains))) ∧
      (∀ p ∈ init, GoodNode p) ∧ bytes init = bytes b.chains := by
  have hchain : ({ chain with next := none } : BufferChain) = chain := by rw [← hnext]
  rcases List.eq_nil_or_concat b.chains with hnil | ⟨init, ⟨l, c⟩, hsnoc⟩
  · refine ⟨[], ?_, ?_⟩
    · simp [pushBack, hnil]
    · simp [hnil]
  · rw [List.concat_eq_append] at hsnoc
    have hnotin : l ∉ addrs init := not_mem_init (hsnoc ▸ hnd)
    have hlast : lastAddr b.chains = some l := by rw [hsnoc, lastAddr_snoc]
    have hlinked := hlink
    rw [hsnoc, linkedTo_snoc] at hlinked
    have hmod : modifyAt l (fun c => { c with next := some (al.alloc (addrs b.chains)) })
        b.chains = init ++ [(l, { c with next := some (al.alloc (addrs b.chains)) })] := by
      rw [hsnoc, modifyAt_snoc hnotin]
    refine ⟨modifyAt l (fun c => { c with next := some (al.alloc (addrs b.chains)) }) b.chains,
      ?_, ?_, ?_, ?_, ?_⟩
    · simp only [pushBack, hlast, hchain]
    · rw [addrs_modifyAt]
    · rw [hmod, linkedTo_snoc]
      exact ⟨hlinked.1, rfl⟩
    · intro p hp
      rw [hmod, List.mem_append, List.mem_singleton] at hp
      rcases hp with hp | rfl
      · exact hgood p (by rw [hsnoc]; exact List.mem_append_left _ hp)
      · exact (hgood (l, c) (by rw [hsnoc]; simp)).setNext _
    · rw [hmod, hsnoc]
      simp [BufferChain.data]

/-- `push_back` only touches the list. -/
theorem pushBack_frame (al : Allocator Addr) (b : Buffer) (chain : BufferChain) :
    (b.pushBack al chain).self = b.self ∧ (b.pushBack al chain).totalLen = b.totalLen ∧
      (b.pushBack al chain).lastChainWithData = b.lastChainWithData := by
  unfold pushBack
  split <;> exact ⟨rfl, rfl, rfl⟩

/-- With the invariant there are no trailing empty chains to free. -/
theorem freeTrailingEmptyChains_eq {b : Buffer} (h : b.WellFormed) (h0 : b.totalLen ≠ 0) :
    b.freeTrailingEmptyChains = .ok (b.lastChainWithData, b) := by
  obtain ⟨init, a, c, hsnoc, hlast⟩ := h.exists_snoc h0
  have hnotin : a ∉ addrs init := not_mem_init (hsnoc ▸ h.nodup)
  have hidx : (addrs b.chains).idxOf a = init.length := by
    rw [hsnoc, addrs_append, List.idxOf_append_of_notMem hnotin]
    simp [addrs]
  have hmem : a ∈ addrs b.chains := by
    rw [hsnoc]
    simp
  have hend : ¬ init.length + 1 < b.chains.length := by
    rw [hsnoc, List.length_append, List.length_singleton]
    omega
  simp only [freeTrailingEmptyChains, if_neg h0, hlast, if_pos hmem, hidx, if_neg hend, pure_eq_ok]

/-! ## `expand_if_needed` -/

/-- What `expand_if_needed` guarantees on top of `Roomy`. -/
structure SameBytes (b b' : Buffer) : Prop where
  self_eq : b'.self = b.self
  total_eq : b'.totalLen = b.totalLen
  content_eq : b'.content = b.content

/-- Appending a fresh, empty chain to well-formed nodes makes room. -/
theorem pushBack_roomy (al : Allocator Addr) {b : Buffer} {n : Nat} (h : b.WellFormed)
    (hn : 1 ≤ n) (hlt : n < 2 ^ 32) :
    let b' := b.pushBack al (new (some b.self) n)
    ∃ init, Roomy b' init (al.alloc (addrs b.chains)) (new (some b.self) n) n ∧
      SameBytes b b' := by
  intro b'
  obtain ⟨init, hchains, haddrs, hlink, hgood, hbytes⟩ :=
    pushBack_spec al (new (some b.self) n) h.nodup h.linked h.good rfl
  obtain ⟨hself, htotal, hlast'⟩ := pushBack_frame al b (new (some b.self) n)
  have hlast : b'.lastChainWithData = lastAddr init := by
    rw [hlast', h.last_eq, lastAddr, lastAddr, haddrs]
  have hcontent : b'.content = b.content := by
    rw [content, hchains, content, ← hbytes]
    simp
  refine ⟨init, ?_, ⟨hself, htotal, hcontent⟩⟩
  exact
    { chains_eq := hchains
      nodup := by
        rw [hchains]
        exact nodup_snoc h.nodup (al.alloc_fresh _) haddrs _
      linked := by
        rw [hchains, linkedTo_snoc]
        exact ⟨hlink, rfl⟩
      init_good := hgood
      ok := new_ok _ hn hlt
      parent_isSome := rfl
      room := by
        rw [new_capacity _ hn]
        exact (Nat.zero_add n).symm ▸ le_calculateActualCapacity n
      last_eq := Or.inr ⟨rfl, hlast⟩
      total_eq := by rw [htotal, hcontent, h.total_eq] }

theorem back_of_roomy {b : Buffer} {init : List (Addr × BufferChain)} {a : Addr}
    {c : BufferChain} {n : Nat} (h : Roomy b init a c n) : b.back = .ok a := by
  simp [back, h.chains_eq]

theorem getChain_of_roomy {b : Buffer} {init : List (Addr × BufferChain)} {a : Addr}
    {c : BufferChain} {n : Nat} (h : Roomy b init a c n) : b.getChain a = .ok c :=
  getChain_snoc h.chains_eq h.nodup

/-- The two copies made on the way (an assignment and a copy construction) leave the data at the
front of a block that has room for `n` more bytes. -/
theorem enlarged_copy {lc : BufferChain} {n : Nat} (parent : Option Addr) (h : lc.Ok)
    (hn : 1 ≤ n) (hlt : lc.off + n < 2 ^ 32) :
    ∃ newed copy, (new parent (lc.off + n)).copyAssign lc = .ok newed ∧
      newed.copyOf = .ok copy ∧ Grown lc copy [] ∧ copy.off + n ≤ copy.capacity ∧
      lc.off + n ≤ copy.capacity := by
  have hlen := h.length_data
  have hoff := h.off_le
  have hlccap := h.capacity_lt
  have hcap := new_capacity parent (n := lc.off + n) (by omega)
  have hge := le_calculateActualCapacity (lc.off + n)
  have hcalc := calculateActualCapacity_lt hlt
  obtain ⟨m, hm⟩ : ∃ m, m = max (new parent (lc.off + n)).capacity lc.capacity := ⟨_, rfl⟩
  have hm_ge : lc.off + n ≤ m := by rw [hm, hcap]; omega
  have hm_lt : m < 2 ^ 32 := by rw [hm, hcap]; omega
  have hnewed := compact_grown (c := lc) (by omega) hm_lt
  obtain ⟨k, hk⟩ : ∃ k, k = calculateActualCapacity m := ⟨_, rfl⟩
  have hk_ge : m ≤ k := hk ▸ le_calculateActualCapacity m
  have hk_lt : k < 2 ^ 32 := hk ▸ calculateActualCapacity_lt hm_lt
  have hdata : (lc.compact m).data = lc.data := by rw [hnewed.data_eq, List.append_nil]
  have hcopy := compact_grown (c := lc.compact m) (by rw [hdata]; omega) hk_lt
  have hmcap : (lc.compact m).capacity = m := rfl
  have hcopyOff : ((lc.compact m).compact k).off = (lc.compact m).data.length := rfl
  have hcopyCap : ((lc.compact m).compact k).capacity = k := rfl
  refine ⟨lc.compact m, (lc.compact m).compact k, ?_, ?_, ?_, ?_, ?_⟩
  · rw [copyAssign_new _ h, ← hm]
  · rw [copyOf_eq hnewed.ok, hmcap, ← hk]
  · exact ⟨hcopy.ok, by rw [hcopy.data_eq, hdata], hcopy.next_eq.trans hnewed.next_eq,
      hcopy.parent_eq.trans hnewed.parent_eq⟩
  · rw [hcopyOff, hcopyCap, hdata]
    omega
  · rw [hcopyCap]
    omega

theorem resizeLastChain_eq {al : Allocator Addr} {b : Buffer} {lc newed copy : BufferChain}
    {n m : Nat} {a : Addr} (hm : u32 (lc.off + n) = m)
    (hassign : (new (some b.self) m).copyAssign lc = .ok newed) (hcopyOf : newed.copyOf = .ok copy)
    (hback : (pushBack al { b with chains := b.chains.dropLast } copy).back = .ok a) :
    b.resizeLastChain al lc n =
      .ok (a, { pushBack al { b with chains := b.chains.dropLast } copy with
        lastChainWithData := some a }) := by
  rw [resizeLastChain, hm, hassign, ok_bind]
  simp only []
  rw [hcopyOf, ok_bind, hback, ok_bind]
  rfl

/-- The larger copy takes the place of the last node, under a new address. -/
theorem resizeLastChain_spec (al : Allocator Addr) {b : Buffer} {n : Nat} (h : b.WellFormed)
    {init : List (Addr × BufferChain)} {a : Addr} {lc : BufferChain}
    (hsnoc : b.chains = init ++ [(a, lc)]) (hn : 1 ≤ n) (hlt : lc.off + n < 2 ^ 32) :
    ∃ a' b' init' c, b.resizeLastChain al lc n = .ok (a', b') ∧ Roomy b' init' a' c n ∧
      SameBytes b b' ∧ b'.lastChainWithData = some a' ∧ c.data = lc.data ∧
      lc.off + n ≤ c.capacity := by
  have hgood : GoodNode (a, lc) := h.good _ (by rw [hsnoc]; simp)
  obtain ⟨newed, copy, hassign, hcopyOf, hcopy, hroom, hlarger⟩ :=
    enlarged_copy (some b.self) hgood.ok hn hlt
  have hlink := h.linked
  rw [hsnoc, linkedTo_snoc] at hlink
  have hnd : (addrs init).Nodup := by
    have := h.nodup
    rw [hsnoc, addrs_append] at this
    exact (List.nodup_append'.mp this).1
  have hinit_good : ∀ p ∈ init, GoodNode p := fun p hp =>
    h.good p (by rw [hsnoc]; exact List.mem_append_left _ hp)
  -- the list after `pop_back`: its last pointer still points to the node that is gone
  obtain ⟨b₁, hb₁⟩ : ∃ b₁ : Buffer, b₁ = { b with chains := init } := ⟨_, rfl⟩
  have hself₁ : b₁.self = b.self := by rw [hb₁]
  have hchains₁ : b₁.chains = init := by rw [hb₁]
  obtain ⟨init', hchains, haddrs, hlink', hgood', hbytes⟩ :=
    pushBack_spec al (b := b₁) copy (e := some a) (by rw [hchains₁]; exact hnd)
      (by rw [hchains₁]; exact hlink.1) (by rw [hchains₁]; exact hinit_good)
      (hcopy.next_eq.trans hlink.2)
  have hpush := pushBack_frame al b₁ copy
  have hcontent : bytes (b₁.pushBack al copy).chains = b.content := by
    rw [hchains, content, hsnoc, bytes_append, bytes_append, hbytes, hchains₁]
    simp [hcopy.data_eq]
  have htotal : (b₁.pushBack al copy).totalLen = b.totalLen := by rw [hpush.2.1, hb₁]
  refine ⟨al.alloc (addrs b₁.chains), { b₁.pushBack al copy with
    lastChainWithData := some (al.alloc (addrs b₁.chains)) }, init', copy, ?_, ?_,
    ⟨hpush.1.trans hself₁, htotal, hcontent⟩, rfl, by rw [hcopy.data_eq, List.append_nil], hlarger⟩
  · have hback : (b₁.pushBack al copy).back = .ok (al.alloc (addrs b₁.chains)) := by
      simp [back, hchains]
    have hdrop : ({ b with chains := b.chains.dropLast } : Buffer) = b₁ := by
      rw [hb₁, hsnoc, List.dropLast_concat]
    rw [resizeLastChain_eq (u32_of_lt hlt) hassign hcopyOf (by rw [hdrop]; exact hback), hdrop]
  · exact
      { chains_eq := hchains
        nodup := by
          change (addrs (b₁.pushBack al copy).chains).Nodup
          rw [hchains]
          exact nodup_snoc (by rw [hchains₁]; exact hnd) (al.alloc_fresh _) haddrs _
        linked := by
          change LinkedTo BufferChain.next (b₁.pushBack al copy).chains none
          rw [hchains, linkedTo_snoc]
          exact ⟨hlink', hcopy.next_eq.trans hlink.2⟩
        init_good := hgood'
        ok := hcopy.ok
        parent_isSome := by
          rw [hcopy.parent_eq]
          exact hgood.parent_isSome
        room := hroom
        last_eq := Or.inl rfl
        total_eq := by
          change (b₁.pushBack al copy).totalLen = (bytes (b₁.pushBack al copy).chains).length
          rw [htotal, hcontent, h.total_eq] }

/-- It is not worth it to enlarge a last chain that is too small, so a new one is put behind it. -/
def Pushes (lc : BufferChain) (n : Nat) : Prop :=
  lc.chainFreeSpace < n ∧ (lc.chainFreeSpace < lc.capacity / 8 ∨ maximumSizeWhenExpand < lc.off ∨
    subU32 maximumChainSize lc.off ≤ n)

instance decidablePushes (lc : BufferChain) (n : Nat) : Decidable (Pushes lc n) :=
  inferInstanceAs (Decidable (_ ∧ _))

/-- The four ways to make room in a well-formed buffer: the node, and the buffer it is in. -/
inductive Expanded (al : Allocator Addr) (b : Buffer) (n : Nat) : Addr → Buffer → Prop
  /-- On an empty list `push_front` and `push_back` do the same. -/
  | first : b.totalLen = 0 →
      Expanded al b n (al.alloc (addrs b.chains)) (b.pushBack al (new (some b.self) n))
  | inPlace {init : List (Addr × BufferChain)} {l : Addr} {lc : BufferChain} :
      b.chains = init ++ [(l, lc)] → n ≤ lc.chainFreeSpace → Expanded al b n l b
  | pushed {init : List (Addr × BufferChain)} {l : Addr} {lc : BufferChain} :
      b.chains = init ++ [(l, lc)] → Pushes lc n →
      Expanded al b n (al.alloc (addrs b.chains)) (b.pushBack al (new (some b.self) n))
  | resized {init init' : List (Addr × BufferChain)} {l a : Addr} {lc c : BufferChain}
      {b' : Buffer} :
      b.chains = init ++ [(l, lc)] → lc.chainFreeSpace < n → ¬ Pushes lc n → Roomy b' init' a c n →
      SameBytes b b' → b'.lastChainWithData = some a → c.data = lc.data →
      lc.off + n ≤ c.capacity → Expanded al b n a b'

theorem expandIfNeeded_expanded (al : Allocator Addr) {b : Buffer} {n : Nat} (h : b.WellFormed)
    (hlt : n < 2 ^ 32) : ∃ a b', b.expandIfNeeded al n = .ok (a, b') ∧ Expanded al b n a b' := by
  by_cases h0 : b.totalLen = 0
  · have hnil := h.chains_eq_nil h0
    refine ⟨_, _, ?_, .first h0⟩
    have hpush : b.pushFront al (new (some b.self) n) = b.pushBack al (new (some b.self) n) := by
      simp only [pushFront, pushBack, hnil, lastAddr_nil, headAddr_nil]
      rfl
    obtain ⟨init, hchains, -⟩ :=
      pushBack_spec al (new (some b.self) n) h.nodup h.linked h.good rfl
    simp only [expandIfNeeded, if_pos h0, hpush, back, hchains, lastAddr_snoc, ok_bind, pure_eq_ok]
  · obtain ⟨init, a, lc, hsnoc, hlast⟩ := h.exists_snoc h0
    have hgood : GoodNode (a, lc) := h.good _ (by rw [hsnoc]; simp)
    have hget : b.getChain a = .ok lc := getChain_snoc hsnoc h.nodup
    have hnext : lc.next = none := by
      have hlink := h.linked
      rw [hsnoc, linkedTo_snoc] at hlink
      exact hlink.2
    have hoff : lc.off ≤ lc.capacity := hgood.ok.off_le
    have hcap : lc.capacity < 2 ^ 32 := hgood.ok.capacity_lt
    simp only [expandIfNeeded, if_neg h0, hlast, nonNull, hget, ok_bind]
    by_cases hroom : n ≤ lc.chainFreeSpace
    · exact ⟨a, b, by rw [if_pos hroom, pure_eq_ok], .inPlace hsnoc hroom⟩
    · rw [if_neg hroom]
      by_cases hworth : lc.chainFreeSpace < lc.capacity / 8 ∨ maximumSizeWhenExpand < lc.off ∨
          subU32 maximumChainSize lc.off ≤ n
      · refine ⟨_, _, ?_, .pushed hsnoc ⟨Nat.lt_of_not_le hroom, hworth⟩⟩
        rw [if_pos hworth, hnext]
        obtain ⟨init', hchains, -⟩ :=
          pushBack_spec al (new (some b.self) n) h.nodup h.linked h.good rfl
        simp only [pushNewChain, freeTrailingEmptyChains_eq h h0, ok_bind, back, hchains,
          lastAddr_snoc, pure_eq_ok]
      · -- by the last test the copy stays below the maximum
        have hsmall : lc.off + n < 2 ^ 32 := by
          have hsub : subU32 maximumChainSize lc.off = maximumChainSize - lc.off :=
            subU32_of_le (by unfold maximumChainSize; omega) (by unfold maximumChainSize; omega)
          rw [not_or, not_or, hsub] at hworth
          unfold maximumChainSize at hworth
          omega
        obtain ⟨a', b', init', c, hok, hroomy, hsame, hlast', hdata, hlarger⟩ :=
          resizeLastChain_spec al h hsnoc (by omega) hsmall
        refine ⟨a', b', by rw [if_neg hworth, hok], ?_⟩
        exact .resized hsnoc (Nat.lt_of_not_le hroom) (fun hpush => hworth hpush.2) hroomy hsame
          hlast' hdata hlarger

theorem WellFormed.roomy {b : Buffer} {n : Nat} (h : b.WellFormed)
    {init : List (Addr × BufferChain)} {l : Addr} {lc : BufferChain}
    (hsnoc : b.chains = init ++ [(l, lc)]) (hroom : n ≤ lc.chainFreeSpace) : Roomy b init l lc n := by
  have hgood : GoodNode (l, lc) := h.good _ (by rw [hsnoc]; simp)
  have hoff : lc.off ≤ lc.capacity := hgood.ok.off_le
  have hfree : lc.chainFreeSpace = lc.capacity - lc.off := hgood.ok.chainFreeSpace_eq
  exact
    { chains_eq := hsnoc, nodup := h.nodup, linked := h.linked
      init_good := fun p hp => h.good p (by rw [hsnoc]; exact List.mem_append_left _ hp)
      ok := hgood.ok, parent_isSome := hgood.parent_isSome
      room := by omega
      last_eq := Or.inl (by rw [h.last_eq, hsnoc, lastAddr_snoc]), total_eq := h.total_eq }

/-- **`expand_if_needed` makes room**: it returns the last node, which has `n` free bytes, and
keeps the content. -/
theorem expandIfNeeded_spec (al : Allocator Addr) {b : Buffer} {n : Nat} (h : b.WellFormed)
    (hn : 1 ≤ n) (hlt : n < 2 ^ 32) :
    ∃ a b' init c, b.expandIfNeeded al n = .ok (a, b') ∧ Roomy b' init a c n ∧
      SameBytes b b' := by
  obtain ⟨a, b', hok, hexpanded⟩ := expandIfNeeded_expanded al h hlt
  obtain ⟨init, hroomy, hsame⟩ := pushBack_roomy al h hn hlt
  refine ⟨a, b', ?_⟩
  cases hexpanded with
  | first _ => exact ⟨init, _, hok, hroomy, hsame⟩
  | @inPlace init _ lc hsnoc hroom => exact ⟨init, lc, hok, h.roomy hsnoc hroom, ⟨rfl, rfl, rfl⟩⟩
  | pushed _ _ => exact ⟨init, _, hok, hroomy, hsame⟩
  | @resized _ init' _ _ _ c _ _ _ _ hroomy' hsame' _ _ _ => exact ⟨init', c, hok, hroomy', hsame'⟩

/-! ## The `append` overloads -/

/-- `b'` is `b` with `src` at the end. -/
structure Appended (b b' : Buffer) (src : List Byte) : Prop where
  self_eq : b'.self = b.self
  wellFormed : b'.WellFormed
  content_eq : b'.content = b.content ++ src

theorem Roomy.appended {b b₁ : Buffer} {init : List (Addr × BufferChain)} {a : Addr}
    {c c' : BufferChain} {n : Nat} {src : List Byte} (h : Roomy b₁ init a c n)
    (hsame : SameBytes b b₁) (hg : Grown c c' src) (hsrc : src ≠ [])
    (hlt : b.totalLen + src.length < 2 ^ 64) :
    Appended b { b₁.setChain a c' with
      totalLen := u64 (b₁.totalLen + src.length), lastChainWithData := some a } src := by
  rw [← hsame.total_eq] at hlt
  obtain ⟨hwf, hcontent⟩ := h.grow hg (by rw [hg.data_eq]; simp [hsrc]) hlt
  rw [u64_of_lt hlt]
  exact ⟨hsame.self_eq, hwf, by rw [hcontent, hsame.content_eq]⟩

theorem length_ne_zero {src : List Byte} (h : src ≠ []) : src.length ≠ 0 :=
  fun h0 => h (List.length_eq_zero_iff.mp h0)

/-- `append(const void*, len)`. -/
theorem appendData_spec (al : Allocator Addr) {b : Buffer} {src : List Byte} (h : b.WellFormed)
    (hsrc : src ≠ []) (hlen : src.length < 2 ^ 32) (hlt : b.totalLen + src.length < 2 ^ 64) :
    ∃ b', b.appendData al (some src) src.length = .ok ((src.length : Int), b') ∧
      Appended b b' src := by
  have hpos := length_ne_zero hsrc
  obtain ⟨a, b₁, init, c, hexp, hroomy, hsame⟩ :=
    expandIfNeeded_spec al h (Nat.pos_of_ne_zero hpos) hlen
  obtain ⟨c', happ, hgrown⟩ := BufferChain.appendData_grown hroomy.ok hsrc hroomy.room
  have hfree : ¬ c.chainFreeSpace < src.length := by
    have := hroomy.room
    rw [hroomy.ok.chainFreeSpace_eq]
    omega
  refine ⟨_, ?_, hroomy.appended hsame hgrown hsrc hlt⟩
  have hguard : ¬ ((some src : Option (List Byte)) = none ∨ src.length = 0) := by simp [hpos]
  simp only [appendData, if_neg hguard, u32_of_lt hlen, hexp, ok_bind,
    getChain_of_roomy hroomy, if_neg hfree, happ, pure_eq_ok]

/-- The first bytes of an empty buffer lie in one chain. -/
theorem appendData_first (al : Allocator Addr) {b b' : Buffer} {src : List Byte} {ret : Int}
    (h : b.WellFormed) (h0 : b.totalLen = 0) (hsrc : src ≠ [])
    (hok : b.appendData al (some src) src.length = .ok (ret, b')) (hcontent : b'.content = src) :
    ∃ a c, b'.chains = [(a, c)] ∧ c.data = src := by
  have hnil := h.chains_eq_nil h0
  have hguard : ¬ ((some src : Option (List Byte)) = none ∨ src.length = 0) := by
    simp [length_ne_zero hsrc]
  rw [appendData, if_neg hguard] at hok
  obtain ⟨⟨a, b₁⟩, hexpand, hok⟩ := bind_eq_ok hok
  obtain ⟨c, hget, hok⟩ := bind_eq_ok hok
  have hone : b₁.chains.length = 1 := by
    rw [expandIfNeeded, if_pos h0] at hexpand
    obtain ⟨_, -, hexpand⟩ := bind_eq_ok hexpand
    cases hexpand
    simp [pushFront, hnil]
  have hlen : b'.chains.length = 1 := by
    split at hok
    · cases hok
      exact hone
    · obtain ⟨⟨_, c'⟩, -, hok⟩ := bind_eq_ok hok
      cases hok
      simpa [setChain, modifyAt] using hone
  obtain ⟨⟨a', c'⟩, hchains⟩ := List.length_eq_one_iff.mp hlen
  refine ⟨a', c', hchains, ?_⟩
  rw [← hcontent, content, hchains]
  simp

/-- `append<T>`. -/
theorem appendT_spec (al : Allocator Addr) {b : Buffer} {obj : List Byte} (h : b.WellFormed)
    (hobj : obj ≠ []) (hlen : obj.length < 2 ^ 32) (hlt : b.totalLen + obj.length < 2 ^ 64) :
    ∃ b', b.appendT al obj = .ok ((obj.length : Int), b') ∧ Appended b b' obj := by
  have hpos := length_ne_zero hobj
  obtain ⟨a, b₁, init, c, hexp, hroomy, hsame⟩ :=
    expandIfNeeded_spec al h (Nat.pos_of_ne_zero hpos) hlen
  have hgrown := written_grown _ hroomy.ok hroomy.room
  refine ⟨_, ?_, hroomy.appended hsame hgrown hobj hlt⟩
  simp only [appendT, u32_of_lt hlen, hexp, ok_bind, getChain_of_roomy hroomy,
    BufferChain.appendT_eq hroomy.ok hroomy.room, pure_eq_ok]

theorem appended_nil {b : Buffer} (h : b.WellFormed) : Appended b b [] :=
  ⟨rfl, h, (List.append_nil _).symm⟩

/-- A fresh last node is linked from the last chain with data. -/
theorem Roomy.next_of_fresh {b : Buffer} {init : List (Addr × BufferChain)} {a l : Addr}
    {c : BufferChain} {n : Nat} (h : Roomy b init a c n) (hlast : lastAddr init = some l) :
    ∃ lc, b.getChain l = .ok lc ∧ lc.next = some a := by
  rcases List.eq_nil_or_concat init with rfl | ⟨init', ⟨l', lc⟩, hinit⟩
  · cases hlast
  · rw [List.concat_eq_append] at hinit
    subst hinit
    rw [lastAddr_snoc] at hlast
    have hl : l' = l := Option.some.inj hlast
    subst hl
    have hnd := h.nodup
    rw [h.chains_eq] at hnd
    have hlink := h.linked
    rw [h.chains_eq, linkedTo_snoc, linkedTo_snoc] at hlink
    have hne : l' ∉ addrs init' := by
      rw [addrs_append] at hnd
      exact not_mem_init (List.nodup_append'.mp hnd).1
    refine ⟨lc, ?_, hlink.1.2⟩
    simp [getChain, h.chains_eq, List.append_assoc, deref_append hne]

/-- `append(const buffer_chain&)` of a foreign chain. A fresh node is written at its start, the
old last node behind its data, and both are the place `off_`. -/
theorem appendCopy_spec (al : Allocator Addr) {b : Buffer} {chain : BufferChain}
    (h : b.WellFormed) (hchain : chain.Ok) (hlt : b.totalLen + chain.data.length < 2 ^ 64) :
    ∃ b', b.appendCopy al chain = .ok ((chain.data.length : Int), b') ∧
      Appended b b' chain.data := by
  by_cases hsize : chain.size = 0
  · have hnil : chain.data = [] := List.length_eq_zero_iff.mp (hchain.size_eq_length ▸ hsize)
    refine ⟨b, by simp [appendCopy, hsize, hnil], ?_⟩
    rw [hnil]
    exact appended_nil h
  · have hlen : chain.data.length < 2 ^ 32 := by
      have h₁ := hchain.length_data
      have h₂ := hchain.off_le
      have h₃ := hchain.capacity_lt
      omega
    have hsrc : chain.data ≠ [] := fun hnil => hsize (by rw [hchain.size_eq_length, hnil]; rfl)
    rw [hchain.size_eq_length] at hsize
    obtain ⟨a, b₁, init, c, hexp, hroomy, hsame⟩ :=
      expandIfNeeded_spec al h (Nat.pos_of_ne_zero hsize) hlen
    have hroom := hroomy.room
    have hfree : ¬ c.chainFreeSpace < chain.data.length := by
      rw [hroomy.ok.chainFreeSpace_eq]
      omega
    have hcopy : memcpy c.buffer c.off chain.data = .ok (c.written chain.data).buffer :=
      memcpy_ok (by rw [hroomy.ok.length_buffer]; exact hroom)
    have hoff : u32 (c.off + chain.data.length) = (c.written chain.data).off :=
      u32_of_lt (Nat.lt_of_le_of_lt hroom hroomy.ok.capacity_lt)
    refine ⟨_, ?_, hroomy.appended hsame (written_grown _ hroomy.ok hroom) hsrc hlt⟩
    simp only [appendCopy, hchain.size_eq_length, if_neg hsize, hexp, ok_bind,
      getChain_of_roomy hroomy, if_neg hfree, hchain.readMem_data]
    by_cases hlast : b₁.lastChainWithData = some a
    · simp only [if_pos hlast, hcopy, ok_bind, pure_eq_ok, hoff]
      rfl
    · -- the data goes to the start of the block, which is where `off_` is
      obtain ⟨hoff0, hlinit⟩ := hroomy.last_eq.resolve_left hlast
      rw [hoff0] at hcopy
      rw [if_neg hlast, hlinit]
      cases hl : lastAddr init with
      | none =>
          simp only [pure_eq_ok, ok_bind, hcopy, hoff]
          rfl
      | some l =>
          obtain ⟨lc, hget, hnext⟩ := hroomy.next_of_fresh hl
          simp only [hget, ok_bind, if_pos hnext, pure_eq_ok, hcopy, hoff]
          rfl

/-- `append(buffer_chain&&)`: the chain itself becomes the last node. -/
theorem appendMove_spec (al : Allocator Addr) {b : Buffer} {chain : BufferChain}
    (h : b.WellFormed) (hchain : chain.Ok) (hlt : b.totalLen + chain.data.length < 2 ^ 64) :
    ∃ b', b.appendMove al chain = .ok ((chain.data.length : Int), b') ∧
      Appended b b' chain.data := by
  by_cases hsize : chain.size = 0
  · have hnil : chain.data = [] := List.length_eq_zero_iff.mp (hchain.size_eq_length ▸ hsize)
    refine ⟨b, by simp [appendMove, hsize, hnil], ?_⟩
    rw [hnil]
    exact appended_nil h
  · -- the chain keeps its bytes and becomes the last node
    rw [hchain.size_eq_length] at hsize
    obtain ⟨moved, hmoved⟩ : ∃ moved : BufferChain,
      moved = { chain with next := none, parent := some b.self } := ⟨_, rfl⟩
    have hdata : moved.data = chain.data := by rw [hmoved]; rfl
    have hgoodMoved : GoodNode (al.alloc (addrs b.chains), moved) := by
      have hpos := hchain.length_data
      rw [hmoved]
      exact ⟨⟨hchain.misalign_le, hchain.off_le, hchain.length_buffer, hchain.capacity_lt⟩,
        by simp only []; omega, rfl⟩
    obtain ⟨init, hchains, haddrs, hlink, hgood, hbytes⟩ :=
      pushBack_spec al moved h.nodup h.linked h.good (by rw [hmoved])
    have hres : b.appendMove al chain = .ok ((chain.data.length : Int),
        { b with
          chains := (b.pushBack al moved).chains
          lastChainWithData := some (al.alloc (addrs b.chains))
          totalLen := u64 (b.totalLen + chain.data.length) }) := by
      by_cases h0 : b.totalLen = 0
      · have hnil := h.chains_eq_nil h0
        have hlast : b.lastChainWithData = none := by rw [h.last_eq, hnil]; rfl
        simp only [appendMove, hchain.size_eq_length, if_neg hsize, hlast, pure_eq_ok, ok_bind,
          pushBack, hnil, lastAddr_nil, hmoved, List.nil_append]
      · obtain ⟨_, l, _, _, hlast⟩ := h.exists_snoc h0
        have hl : lastAddr b.chains = some l := by rw [← h.last_eq, hlast]
        simp only [appendMove, hchain.size_eq_length, if_neg hsize, hlast,
          freeTrailingEmptyChains_eq h h0, nonNull, pure_eq_ok, ok_bind, pushBack, hl, hmoved]
    refine ⟨_, hres, rfl, ?_, ?_⟩
    · exact
        { nodup := by
            simp only [hchains]
            exact nodup_snoc h.nodup (al.alloc_fresh _) haddrs _
          linked := by
            simp only [hchains, linkedTo_snoc]
            exact ⟨hlink, by rw [hmoved]⟩
          good := by
            intro p hp
            simp only [hchains, List.mem_append, List.mem_singleton] at hp
            rcases hp with hp | rfl
            · exact hgood p hp
            · exact hgoodMoved
          last_eq := by simp only [hchains, lastAddr_snoc]
          total_eq := by
            simp only [content, hchains, bytes_append, hbytes, u64_of_lt hlt]
            simp [hdata, h.total_eq, content]
          total_lt := Nat.mod_lt _ (by decide) }
    · simp only [content, hchains, bytes_append, hbytes]
      simp [hdata]

end Buffer
end Unp.Reactor
