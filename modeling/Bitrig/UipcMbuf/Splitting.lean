import Bitrig.UipcMbuf.Copying

/-!
# Splitting a chain

The head keeps the first bytes and the tail gets the others, and both packet headers carry the
right numbers, provided that the length of every mbuf of the tail is set.
-/

namespace Bitrig.UipcMbuf

open Bitrig.Transition Bitrig.Window List Option

variable {mem mem' : Mem} {m n : Mbuf} {chain before after : Chain} {len len0 : Nat}
variable {hdr : Option Pkthdr} {k : Nat}

theorem findPos_of_le (some' : chain ≠ []) (le : len0 ≤ chain.total) :
    ∃ before m after len, findPos chain len0 = some (before, m, after, len) ∧
      chain = before ++ m :: after ∧ before.total + len = len0 ∧ len ≤ m.len := by
  induction chain generalizing len0 with
  | nil => exact absurd rfl some'
  | cons m rest ih =>
    rw [Chain.total_cons] at le
    rw [findPos]
    by_cases behind : m.len < len0
    · have some'' : rest ≠ [] := by
        rintro rfl
        change len0 ≤ m.len + 0 at le
        omega
      obtain ⟨before, m', after, len, found, isChain, isLen, le'⟩ :=
        ih some'' (show len0 - m.len ≤ Chain.total rest by omega)
      refine ⟨m :: before, m', after, len, ?_, by rw [isChain]; rfl, ?_, le'⟩
      · rw [if_pos behind, found]
        rfl
      · rw [Chain.total_cons]
        omega
    · exact ⟨[], m, rest, len0, if_neg behind, rfl, zero_add len0, not_lt.mp behind⟩

/-! ### The packet header of the head -/

section SetPkthdrLen

variable {k : Int}

theorem setPkthdrLen_bytes : (setPkthdrLen k chain).bytes mem = chain.bytes mem := by
  cases chain with
  | nil => rfl
  | cons m rest => rfl

theorem setPkthdrLen_total : (setPkthdrLen k chain).total = chain.total := by
  cases chain with
  | nil => rfl
  | cons m rest => rfl

theorem setPkthdrLen_inside (inside : ∀ m ∈ chain, m.Inside) :
    ∀ m ∈ setPkthdrLen k chain, m.Inside := by
  cases chain with
  | nil => exact inside
  | cons m rest =>
    obtain ⟨first, others⟩ := forall_mem_cons.mp inside
    refine forall_mem_cons.mpr ⟨?_, others⟩
    unfold Mbuf.Inside Mbuf.base Mbuf.limit at first ⊢
    rw [isSome_map]
    exact first

theorem Headers.setPkthdrLen (headers : Headers hdr chain) :
    Headers (hdr.map fun _ => ⟨k⟩) (setPkthdrLen k chain) := by
  cases chain with
  | nil => trivial
  | cons m rest =>
    obtain ⟨first, others⟩ := headers
    exact ⟨by rw [← first], others⟩

end SetPkthdrLen

theorem setPkthdrLen_of_plain {k : Int} (plain : ∀ m ∈ chain.head?, m.pkthdr = none) :
    setPkthdrLen k chain = chain := by
  cases chain with
  | nil => rfl
  | cons m rest =>
    obtain ⟨id, pkthdr, zeroize, ext, data, len, dat⟩ := m
    cases plain _ rfl
    rfl

theorem Headers.append (headers : Headers hdr (before ++ m :: after)) (m' : Mbuf)
    (same : m'.pkthdr = m.pkthdr) :
    Headers hdr (before ++ [m']) ∧ ∀ m ∈ after, m.pkthdr = none := by
  cases before with
  | nil => exact ⟨⟨same.trans headers.1, nofun⟩, headers.2⟩
  | cons m0 before =>
    obtain ⟨first, others⟩ := headers
    obtain ⟨others, last⟩ := forall_mem_append.mp others
    obtain ⟨here, last⟩ := forall_mem_cons.mp last
    exact ⟨⟨first, forall_mem_append.mpr
      ⟨others, forall_mem_singleton.mpr (same.trans here)⟩⟩, last⟩

/-! ### The mbuf in which the chain is split -/

/-- What the new mbuf gets. -/
structure TookOver (m : Mbuf) (len : Nat) (n : Mbuf) (mem : Mem) (n' : Mbuf) (mem' : Mem) :
    Prop where
  keeps : mem.Keeps mem'
  pkthdr : n'.pkthdr = n.pkthdr
  bytes : n'.bytes mem' = window (m.area mem) (m.data + len) (m.len - len)
  inside : n'.Inside

theorem splitInto_tookOver (mem : Mem) (inside : m.Inside) (le : len ≤ m.len) (empty : n.ext = none)
    (room : m.ext = none → n.base ≤ n.data ∧ n.data + (m.len - len) ≤ mlen) :
    ∃ n' mem', splitInto m len n mem = ({ m with len := len }, n', mem') ∧
      TookOver m len n mem n' mem' := by
  unfold splitInto
  dsimp only
  by_cases shared : m.ext.isSome = true
  · obtain ⟨e, is⟩ := isSome_iff_exists.mp shared
    rw [if_pos shared]
    refine ⟨_, _, rfl, ⟨le_rfl, le_rfl, fun _ _ => rfl, rfl, le_rfl, rfl⟩, rfl, ?_, ?_⟩
    · refine congrArg (window · _ _) ?_
      rw [Mbuf.area_of_ext is]
      exact Mbuf.area_of_ext is
    · have last := inside.le_size is
      refine Mbuf.inside_of_ext is ?_
      show m.data + len + (m.len - len) ≤ e.size
      omega
  · obtain ⟨first, last⟩ := room (not_isSome_iff_eq_none.mp shared)
    have limit := Mbuf.limit_of_empty empty
    have fits : n.data + (window (m.area mem) (m.data + len) (m.len - len)).length ≤ n.limit := by
      rw [length_window, limit]
      exact last
    rw [if_neg shared, Mbuf.put_dat empty, stray_of_inside first fits]
    refine ⟨_, _, rfl, .refl mem, rfl, ?_, first, ?_⟩
    · unfold Mbuf.bytes Mbuf.area
      rw [empty]
      have copied := window_copyIn n.dat n.data (window (m.area mem) (m.data + len) (m.len - len))
      rw [length_window] at copied
      exact copied
    · rw [length_window] at fits
      exact fits

/-! ### The split -/

/-- The head has the first bytes and the tail the others, with their numbers in the packet headers,
if the chain had one. -/
structure SplitAt (chain : Chain) (len0 : Nat) (mem : Mem) (head tail : Chain) (mem' : Mem) :
    Prop where
  bytes : head.bytes mem' ++ tail.bytes mem' = chain.bytes mem
  total : head.total = len0
  headHdr : Headers ((chain.head?.bind (·.pkthdr)).map fun _ => ⟨len0⟩) head
  tailHdr : Headers ((chain.head?.bind (·.pkthdr)).map fun _ => ⟨tail.total⟩) tail
  inside : ∀ m ∈ head ++ tail, m.Inside

/-- The mbuf is split, and what is before and behind it is divided. -/
theorem TookOver.splitAt {n' : Mbuf} (took : TookOver m len n mem n' mem')
    (wf : Chain.Wf (before ++ m :: after) mem) (le : len ≤ m.len)
    (headers : Headers hdr (before ++ m :: after))
    (isHdr : n.pkthdr = hdr.map fun h => ⟨h.len - (before.total + len : Nat)⟩) :
    SplitAt (before ++ m :: after) (before.total + len) mem
      (setPkthdrLen (before.total + len : Nat) (before ++ [{ m with len := len }]))
      (n' :: after) mem' := by
  obtain ⟨knownBefore, knownRest⟩ := forall_mem_append.mp wf.known
  obtain ⟨knownM, knownAfter⟩ := forall_mem_cons.mp knownRest
  obtain ⟨insideBefore, insideRest⟩ := forall_mem_append.mp wf.inside
  obtain ⟨insideM, insideAfter⟩ := forall_mem_cons.mp insideRest
  have isFirst : (before ++ m :: after).head?.bind (·.pkthdr) = hdr := by
    cases before with
    | nil | cons m0 rest => exact headers.1
  obtain ⟨headersHead, headersTail⟩ := headers.append { m with len := len } rfl
  refine ⟨?_, ?_, ?_, ?_, ?_⟩
  · have whole : m.bytes mem = window (m.area mem) m.data len ++ n'.bytes mem' := by
      rw [took.bytes, ← window_add, Nat.add_sub_cancel' le]
      rfl
    have part : ({ m with len := len } : Mbuf).bytes mem' = window (m.area mem) m.data len := by
      show window (m.area mem') m.data len = _
      rw [knownM.area took.keeps]
    rw [setPkthdrLen_bytes, Chain.bytes_append, Chain.bytes_append, Chain.bytes_cons,
      Chain.bytes_cons, Chain.bytes_cons, Chain.bytes_keeps knownBefore took.keeps,
      Chain.bytes_keeps knownAfter took.keeps, part, whole]
    simp only [Chain.bytes, flatMap_nil, append_nil, append_assoc]
  · rw [setPkthdrLen_total, Chain.total_append]
    rfl
  · rw [isFirst]
    exact headersHead.setPkthdrLen
  · rw [isFirst]
    refine ⟨?_, headersTail⟩
    rw [took.pkthdr, isHdr]
    cases hdr with
    | none => rfl
    | some h =>
      obtain ⟨m0, isHead, isSome⟩ := bind_eq_some_iff.mp isFirst
      have size : n'.len = m.len - len := by
        rw [← Mbuf.length_bytes n' mem', took.bytes, length_window]
      have left : h.len - (before.total + len : Nat) = (Chain.total (n' :: after) : Nat) := by
        rw [wf.header m0 isHead h isSome, Chain.total_append, Chain.total_cons, Chain.total_cons]
        omega
      rw [map_some, map_some, left]
  · refine forall_mem_append.mpr ⟨setPkthdrLen_inside (forall_mem_append.mpr
      ⟨insideBefore, forall_mem_singleton.mpr ⟨insideM.1, ?_⟩⟩),
      forall_mem_cons.mpr ⟨took.inside, insideAfter⟩⟩
    have last : m.data + m.len ≤ m.limit := insideM.2
    show m.data + len ≤ m.limit
    omega

/-- The length of every new mbuf is set: an mbuf without a cluster, behind the packet header, is not
split in front of more bytes than fit behind a packet header. -/
def SplitSets (chain : Chain) (len0 : Nat) : Prop :=
  ∀ found ∈ findPos chain len0, (chain.head?.bind (·.pkthdr)).isSome = true → found.2.1.ext = none →
    found.2.1.len - found.2.2.2 ≤ mhlen

instance (chain : Chain) (len0 : Nat) : Decidable (SplitSets chain len0) := by
  unfold SplitSets
  infer_instance

/-- An mbuf is put at the end of the data area. -/
theorem mhAlign_room (empty : n.ext = none) (isHdr : n.pkthdr.isSome = true)
    (start : n.data = mPktdat) (le : k ≤ mhlen) :
    (mhAlign n k).base ≤ (mhAlign n k).data ∧ (mhAlign n k).data + k ≤ mlen := by
  have base : (mhAlign n k).base = mPktdat :=
    (Mbuf.base_of_empty (m := mhAlign n k) empty).trans (if_pos isHdr)
  have size : mPktdat + mhlen = mlen := by decide
  have data : (mhAlign n k).data = mPktdat + (mhlen - k) / 8 * 8 := by
    rw [mhAlign, start]
  omega

theorem mAlign_room (empty : n.ext = none) (plain : n.pkthdr = none) (start : n.data = 0)
    (le : k ≤ mlen) : (mAlign n k).base ≤ (mAlign n k).data ∧ (mAlign n k).data + k ≤ mlen := by
  have base : (mAlign n k).base = 0 := by
    rw [Mbuf.base_of_empty (m := mAlign n k) empty, show (mAlign n k).pkthdr = none from plain]
    rfl
  have data : (mAlign n k).data = 0 + (mlen - k) / 8 * 8 := by
    rw [mAlign, start]
  omega

/-- How a chain is split at a place that was found: not at all without memory, between two mbufs, or
in an mbuf whose last bytes go to a new one. -/
inductive SplitCase (chain : Chain) (len0 : Nat) (mem : Mem) (before : Chain) (m : Mbuf)
    (after : Chain) (len : Nat) (hdr : Option Pkthdr) : Option (Chain × Chain × Mem) → Prop
  | denied (pool : List (Option Junk)) (mbufs : Nat) :
      SplitCase chain len0 mem before m after len hdr
        (some (chain, [], { mem with pool := pool, mbufs := mbufs, denied := mem.denied + 1 }))
  | between (plain : hdr = none) (last : m.len - len = 0) :
      SplitCase chain len0 mem before m after len hdr (some (before ++ [m], after, mem))
  | within (pool : List (Option Junk)) (n : Mbuf) (empty : n.ext = none)
      (pkthdr : n.pkthdr = hdr.map fun h => ⟨h.len - len0⟩)
      (room : m.ext = none → n.base ≤ n.data ∧ n.data + (m.len - len) ≤ mlen)
      {m' n' : Mbuf} {last : Mem}
      (into : splitInto m len n { mem with pool := pool, mbufs := mem.mbufs + 1 } =
        (m', n', last)) :
      SplitCase chain len0 mem before m after len hdr
        (some (setPkthdrLen len0 (before ++ [m']), n' :: after, last))

theorem splitInto_fst : (splitInto m len n mem).1 = { m with len := len } := by
  unfold splitInto
  split_ifs <;> rfl

theorem mSplit_cases {m0 : Mbuf} (mem : Mem)
    (found : findPos chain len0 = some (before, m, after, len)) (isHead : chain.head? = some m0)
    (isChain : chain = before ++ m :: after) (fits : m.ext = none → m.len - len ≤ mlen)
    (sets : SplitSets chain len0) :
    SplitCase chain len0 mem before m after len m0.pkthdr (mSplit chain len0 mem) := by
  simp only [mSplit, splitAux, found, isHead, bind_eq_bind, bind_some]
  by_cases packet : m0.pkthdr.isSome = true
  · rw [if_pos packet]
    rcases mGethdr_cases mem with ⟨pool, get⟩ | ⟨junk, pool, get⟩
    · rw [get]
      exact .denied pool mem.mbufs
    · rcases mDupPkthdr_cases packet ⟨mem.mbufs, some ⟨0⟩, false, none, mPktdat, junk.len,
        junk.fill⟩
        { mem with pool := pool, mbufs := mem.mbufs + 1 } with ⟨pool', dup⟩ | ⟨pool', dup⟩
      · simp only [get, dup, mFreem_of_empty, bind_some, if_true]
        exact .denied pool' (mem.mbufs + 1)
      · have small : m.ext = none → m.len - len ≤ mhlen :=
          sets _ found (by rw [isHead]; exact packet)
        have sets' : ¬(m.ext.isSome = false ∧ mhlen < m.len - len) := by
          rintro ⟨plain, more⟩
          rw [isSome_eq_false_iff, isNone_iff_eq_none] at plain
          exact absurd more (not_lt.mpr (small plain))
        have isHdr :
            (m0.pkthdr.map fun hdr : Pkthdr => (⟨hdr.len - len0⟩ : Pkthdr)).isSome = true := by
          rw [isSome_map]
          exact packet
        simp only [get, dup, if_neg sets', bind_some, Bool.false_eq_true, if_false]
        refine .within pool' _ (by split_ifs <;> rfl) (by split_ifs <;> rfl) (fun plain => ?_) rfl
        rw [plain, isSome_none]
        exact mhAlign_room rfl isHdr rfl (small plain)
  · rw [if_neg packet]
    have plain : m0.pkthdr = none := not_isSome_iff_eq_none.mp packet
    by_cases last : m.len - len = 0
    · rw [if_pos last]
      exact .between plain last
    · rw [if_neg last]
      rcases mGet_cases mem with ⟨pool, get⟩ | ⟨junk, pool, get⟩
      · rw [get]
        exact .denied pool mem.mbufs
      · obtain ⟨m', n', mem', into⟩ : ∃ m' n' mem', splitInto m len
            (mAlign ⟨mem.mbufs, none, false, none, 0, junk.len, junk.fill⟩ (m.len - len))
            { mem with pool := pool, mbufs := mem.mbufs + 1 } = (m', n', mem') := ⟨_, _, _, rfl⟩
        have isFst : m' = { m with len := len } := by rw [← splitInto_fst, into]
        have same : setPkthdrLen len0 (before ++ [m']) = before ++ [m'] := by
          refine setPkthdrLen_of_plain fun first isFirst => ?_
          rw [isChain] at isHead
          rw [isFst] at isFirst
          cases before <;> cases isHead <;> cases isFirst <;> exact plain
        simp only [get, into]
        rw [← same]
        exact .within pool _ rfl (by rw [plain]; rfl)
          (fun empty => mAlign_room rfl rfl rfl (fits empty)) into

/-- A chain is split, or it is left as it is because there is no memory. -/
def Splits (chain : Chain) (len0 : Nat) (mem : Mem) : Prop :=
  ∃ head tail mem', mSplit chain len0 mem = some (head, tail, mem') ∧ mem'.stray = mem.stray ∧
    (head = chain ∧ tail = [] ∧ mem.denied < mem'.denied ∧ chain.bytes mem' = chain.bytes mem ∨
      SplitAt chain len0 mem head tail mem')

theorem splits_of_sets (wf : chain.Wf mem) (single : ∀ m ∈ chain.tail, m.pkthdr = none)
    (le : len0 ≤ chain.total) (sets : SplitSets chain len0) : Splits chain len0 mem := by
  obtain ⟨before, m, after, len, found, rfl, rfl, leM⟩ := findPos_of_le wf.nonempty le
  obtain ⟨m0, isHead⟩ := ne_none_iff_exists'.mp (mt head?_eq_none_iff.mp wf.nonempty)
  have insideM := wf.inside m (mem_append_right _ mem_cons_self)
  have headers : Headers m0.pkthdr (before ++ m :: after) := by
    cases before <;> cases isHead <;> exact ⟨rfl, single⟩
  have fits : m.ext = none → m.len - len ≤ mlen := by
    intro plain
    have last := insideM.le_mlen plain
    omega
  have result := mSplit_cases mem found isHead rfl fits sets
  unfold Splits
  generalize mSplit (before ++ m :: after) (before.total + len) mem = split at result
  cases result with
  | denied pool mbufs => exact ⟨_, [], _, rfl, rfl, .inl ⟨rfl, rfl, Nat.lt_succ_self _, rfl⟩⟩
  | between plain last =>
    rw [plain] at headers
    refine ⟨_, _, mem, rfl, rfl, .inr ⟨?_, ?_, ?_, ?_, ?_⟩⟩
    · rw [← Chain.bytes_append, append_assoc]
      rfl
    · rw [Chain.total_append, Chain.total_cons, show m.len = len by omega]
      rfl
    · rw [isHead, bind_some, plain]
      exact (headers.append m rfl).1
    · rw [isHead, bind_some, plain]
      cases after with
      | nil => trivial
      | cons m' rest => exact forall_mem_cons.mp (headers.append m rfl).2
    · rw [append_assoc]
      exact wf.inside
  | within pool n empty pkthdr room into =>
    obtain ⟨n', last, into', took⟩ := splitInto_tookOver { mem with
      pool := pool, mbufs := mem.mbufs + 1 } insideM leM empty room
    have took' : TookOver m len n mem n' last :=
      { took with keeps := (mem.keeps_pool pool le_rfl (Nat.le_succ _)).trans took.keeps }
    cases into.symm.trans into'
    exact ⟨_, _, _, rfl, took'.keeps.stray, .inr (took'.splitAt wf leM headers pkthdr)⟩

theorem splitInto_len : (splitInto m len n mem).2.1.len = m.len - len := by
  unfold splitInto
  split_ifs <;> rfl

/-- The mbuf in front of the tail has the length that it was handed out with. -/
theorem sets_of_splits (wf : chain.Wf mem) (le : len0 ≤ chain.total)
    (splits : ∀ pool, Splits chain len0 { mem with pool := pool }) : SplitSets chain len0 := by
  rintro ⟨before, m, after, len⟩ found isHdr plain
  obtain ⟨_, _, _, _, found', isChain, isLen, leM⟩ := findPos_of_le wf.nonempty le
  cases found'.symm.trans found
  by_contra more
  rw [not_le] at more
  change mhlen < m.len - len at more
  change m.ext = none at plain
  obtain ⟨m0, isHead⟩ := ne_none_iff_exists'.mp (mt head?_eq_none_iff.mp wf.nonempty)
  rw [isHead, bind_some] at isHdr
  have isPlain : m.pkthdr.isSome = false := by
    by_contra packet
    obtain ⟨first, last⟩ := wf.inside m (isChain ▸ mem_append_right before mem_cons_self)
    rw [Mbuf.base_of_empty plain, if_pos (Bool.eq_true_of_not_eq_false packet)] at first
    rw [Mbuf.limit_of_empty plain] at last
    have : mPktdat + mhlen = mlen := by decide
    omega
  obtain ⟨depth, deep⟩ : ∃ depth, chain.length = depth + 1 :=
    Nat.exists_eq_add_one.mpr (length_pos_iff.mpr wf.nonempty)
  obtain ⟨head, tail, mem', split, -, result⟩ := splits (replicate 3 (some ⟨1, fun _ => 0⟩))
  have inner : findPos (m :: after) len = some ([], m, after, len) := if_neg (not_lt.mpr leM)
  simp only [mSplit, deep, splitAux, show findPos chain len0 = _ from found, isHead, isHdr,
    mGethdr, mGet, poolGet, mDupPkthdr, kassert_of_holds, plain, more, inner, isPlain, replicate,
    bind_eq_bind, bind_some, head?_cons, mInithdr, if_true, if_false, Bool.false_eq_true,
    isSome_none, and_self, Option.pure_def, isEmpty_cons, show ¬m.len - len = 0 by omega] at split
  cases split
  rcases result with ⟨-, none, -⟩ | split
  · cases none
  · have lengths := congrArg length split.bytes
    have total : Chain.total (before ++ m :: after) = chain.total := by rw [isChain]
    rw [length_append, Chain.length_bytes, Chain.length_bytes, Chain.length_bytes, split.total,
      Chain.total_cons, Chain.total_cons, splitInto_len, ← total, Chain.total_append,
      Chain.total_cons] at lengths
    change len0 + (1 + (m.len - len + after.total)) = _ at lengths
    omega

/-- Whatever the pools hand out, a chain is split or left as it is, if and only if the length of
every new mbuf is set. -/
theorem mSplit_splits (wf : chain.Wf mem) (single : ∀ m ∈ chain.tail, m.pkthdr = none)
    (le : len0 ≤ chain.total) :
    (∀ pool, Splits chain len0 { mem with pool := pool }) ↔ SplitSets chain len0 := by
  refine ⟨sets_of_splits wf le, fun sets pool => ?_⟩
  have wf' : chain.Wf { mem with pool := pool } := ⟨wf.nonempty, wf.inside, wf.known, wf.header⟩
  exact splits_of_sets wf' single le sets

theorem samplePacket_splits : Splits samplePacket 4 sampleMem := by
  refine (mSplit_splits samplePacket_wf (by decide) (by decide)).mpr ?_ sampleMem.pool
  intro found isFound _ plain
  cases isFound
  cases plain

/-- A packet with a long second mbuf. -/
def longSecond : Chain :=
  [⟨0, some ⟨210⟩, false, none, mPktdat, 10, fun _ => 0⟩,
    ⟨1, none, false, none, 0, 200, fun _ => 0⟩]

/-- The tail starts with an mbuf whose length was never set. -/
theorem longSecond_unset :
    longSecond.Wf sampleMem ∧ (∀ m ∈ longSecond.tail, m.pkthdr = none) ∧ 11 ≤ longSecond.total ∧
      ∃ head tail mem', mSplit longSecond 11 sampleMem = some (head, tail, mem') ∧ tail ≠ [] ∧
        head.bytes mem' ++ tail.bytes mem' ≠ longSecond.bytes sampleMem := by
  refine ⟨⟨cons_ne_nil _ _, by decide, ?_, ?_⟩, by decide, by decide, ?_⟩
  · exact forall_mem_cons.mpr ⟨nofun, forall_mem_singleton.mpr nofun⟩
  · intro m is hdr isHdr
    cases is
    cases isHdr
    rfl
  · have passed : (mSplit longSecond 11 sampleMem).any (fun result =>
        !result.2.1.isEmpty && decide (result.1.total + result.2.1.total = 287)) = true := by
      decide +kernel
    obtain ⟨⟨head, tail, mem'⟩, split, test⟩ := (any_eq_true _ _).mp passed
    simp only [Bool.and_eq_true, Bool.not_eq_true', decide_eq_true_eq] at test
    refine ⟨head, tail, mem', split, ?_, fun same => ?_⟩
    · intro isNil
      rw [isNil] at test
      cases test.1
    · have lengths := congrArg List.length same
      rw [length_append, Chain.length_bytes, Chain.length_bytes, Chain.length_bytes,
        test.2] at lengths
      exact absurd lengths (by decide)

end Bitrig.UipcMbuf
