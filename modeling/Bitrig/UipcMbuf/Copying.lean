import Bitrig.UipcMbuf.Chains

/-!
# Copies of a chain

A copy has the bytes that were asked for, its packet header carries their number, and the data of
each of its mbufs lie inside the data area.
-/

namespace Bitrig.UipcMbuf

open Bitrig.Transition Bitrig.Window Function List Option

variable {mem mem' mem'' : Mem} {m n m0 : Mbuf} {chain rest top : Chain}
variable {off len : Nat} {deep copyhdr zeroize : Bool} {denied mbufs k : Nat} {e : Ext}
  {fill : Nat → Byte} {n' : Mbuf} {pool : List (Option Junk)}

/-! ### Memory that is kept -/

/-- The clusters that were there are as they were, and nothing was written outside of a data
area. -/
structure Mem.Keeps (mem mem' : Mem) : Prop where
  cls : mem.cls ≤ mem'.cls
  mbufs : mem.mbufs ≤ mem'.mbufs
  clusters : ∀ c < mem.cls, mem'.clusters c = mem.clusters c
  stray : mem'.stray = mem.stray
  denied : mem.denied ≤ mem'.denied
  diagnostic : mem'.diagnostic = mem.diagnostic

theorem Mem.Keeps.refl (mem : Mem) : mem.Keeps mem :=
  ⟨le_rfl, le_rfl, fun _ _ => rfl, rfl, le_rfl, rfl⟩

theorem Mem.Keeps.trans (first : mem.Keeps mem') (second : mem'.Keeps mem'') : mem.Keeps mem'' where
  cls := first.cls.trans second.cls
  mbufs := first.mbufs.trans second.mbufs
  clusters c less := (second.clusters c (less.trans_le first.cls)).trans (first.clusters c less)
  stray := second.stray.trans first.stray
  denied := first.denied.trans second.denied
  diagnostic := second.diagnostic.trans first.diagnostic

theorem Mem.keeps_pool (mem : Mem) (pool : List (Option Junk)) (le : mem.denied ≤ denied)
    (le' : mem.mbufs ≤ mbufs) :
    mem.Keeps { mem with pool := pool, denied := denied, mbufs := mbufs } :=
  ⟨le_rfl, le', fun _ _ => rfl, rfl, le, rfl⟩

/-- The cluster of an mbuf has been handed out. -/
def Mbuf.Known (m : Mbuf) (mem : Mem) : Prop :=
  ∀ e, m.ext = some e → e.buf < mem.cls

theorem Mbuf.Known.keeps (known : m.Known mem) (keeps : mem.Keeps mem') : m.Known mem' :=
  fun e is => (known e is).trans_le keeps.cls

theorem Mbuf.Known.area (known : m.Known mem) (keeps : mem.Keeps mem') :
    m.area mem' = m.area mem := by
  unfold Mbuf.area
  cases is : m.ext with
  | none => rfl
  | some e => exact keeps.clusters e.buf (known e is)

theorem Mbuf.Known.bytes (known : m.Known mem) (keeps : mem.Keeps mem') :
    m.bytes mem' = m.bytes mem := by
  unfold Mbuf.bytes
  rw [known.area keeps]

theorem Chain.bytes_keeps (known : ∀ m ∈ chain, m.Known mem) (keeps : mem.Keeps mem') :
    chain.bytes mem' = chain.bytes mem :=
  flatMap_congr fun m member => (known m member).bytes keeps

@[simp]
theorem Mbuf.length_bytes (m : Mbuf) (mem : Mem) : (m.bytes mem).length = m.len :=
  length_window

theorem Chain.length_bytes (chain : Chain) (mem : Mem) :
    (chain.bytes mem).length = chain.total := by
  unfold Chain.bytes Chain.total
  rw [length_flatMap]
  simp only [Mbuf.length_bytes]

theorem Chain.bytes_cons : Chain.bytes (m :: rest) mem = m.bytes mem ++ rest.bytes mem :=
  flatMap_cons

theorem Chain.bytes_append : Chain.bytes (top ++ rest) mem = top.bytes mem ++ rest.bytes mem :=
  flatMap_append

theorem Chain.total_cons : Chain.total (m :: rest) = m.len + rest.total :=
  sum_cons

theorem Chain.total_append : Chain.total (top ++ rest) = top.total + rest.total := by
  unfold Chain.total
  rw [map_append, sum_append]

/-! ### Writing to a data area -/

theorem Mbuf.area_of_ext (is : m.ext = some e) : m.area mem = mem.clusters e.buf := by
  unfold Mbuf.area
  rw [is]

theorem Mbuf.put_ext (is : m.ext = some e) (src : List Byte) : m.put off src mem = (m, { mem with
      stray := mem.stray || !decide (m.base ≤ off ∧ off + src.length ≤ m.limit)
      clusters := update mem.clusters e.buf (copyIn (mem.clusters e.buf) off src) }) := by
  unfold Mbuf.put
  rw [is]

theorem Mbuf.put_dat (is : m.ext = none) (src : List Byte) :
    m.put off src mem = ({ m with dat := copyIn m.dat off src }, { mem with
      stray := mem.stray || !decide (m.base ≤ off ∧ off + src.length ≤ m.limit) }) := by
  unfold Mbuf.put
  rw [is]

theorem stray_of_inside {src : List Byte} (first : m.base ≤ off)
    (last : off + src.length ≤ m.limit) :
    (mem.stray || !decide (m.base ≤ off ∧ off + src.length ≤ m.limit)) = mem.stray := by
  rw [decide_eq_true ⟨first, last⟩, Bool.not_true, Bool.or_false]

theorem base_le_limit (m : Mbuf) : m.base ≤ m.limit := by
  unfold Mbuf.base Mbuf.limit
  cases m.ext with
  | none =>
    split_ifs <;> decide
  | some e => exact Nat.zero_le _

theorem Mbuf.base_of_empty (empty : m.ext = none) :
    m.base = if m.pkthdr.isSome then mPktdat else 0 := by
  rw [Mbuf.base, empty]

theorem Mbuf.base_of_ext (isExt : m.ext = some e) : m.base = 0 := by
  rw [Mbuf.base, isExt]

theorem Mbuf.limit_of_empty (empty : m.ext = none) : m.limit = mlen := by
  rw [Mbuf.limit, empty]

theorem Mbuf.limit_of_ext (isExt : m.ext = some e) : m.limit = e.size := by
  rw [Mbuf.limit, isExt]

/-- An mbuf has room for `MHLEN` bytes. -/
theorem Mbuf.room_of_empty (empty : m.ext = none) : m.base + mhlen ≤ mlen := by
  rw [Mbuf.base_of_empty empty]
  split_ifs <;> decide

theorem Mbuf.inside_of_ext (isExt : m.ext = some e) (last : m.data + m.len ≤ e.size) :
    m.Inside := by
  rw [Mbuf.Inside, Mbuf.base_of_ext isExt, Mbuf.limit_of_ext isExt]
  exact ⟨Nat.zero_le _, last⟩

theorem Mbuf.Inside.le_mlen (inside : m.Inside) (empty : m.ext = none) : m.data + m.len ≤ mlen := by
  rw [← Mbuf.limit_of_empty empty]
  exact inside.2

theorem Mbuf.Inside.le_size (inside : m.Inside) (isExt : m.ext = some e) :
    m.data + m.len ≤ e.size := by
  rw [← Mbuf.limit_of_ext isExt]
  exact inside.2

theorem zeros_fit (m : Mbuf) :
    m.base + (List.replicate (m.limit - m.base) (0 : Byte)).length ≤ m.limit := by
  rw [length_replicate, Nat.add_sub_cancel' (base_le_limit m)]

theorem mReadonly_of_empty (empty : m.ext = none) : mReadonly m mem = false := by
  rw [mReadonly, empty]

/-! ### Freeing -/

/-- A chain that can be freed: nothing is checked, nothing has to be cleared, or nothing is
shared. -/
def Releasable (chain : Chain) (mem : Mem) : Prop :=
  mem.diagnostic = false ∨ (∀ m ∈ chain, m.zeroize = false) ∨ ∀ m ∈ chain, mReadonly m mem = false

/-- What freeing an mbuf leaves as it is. -/
structure Mem.Frees (mem mem' : Mem) : Prop where
  stray : mem'.stray = mem.stray
  denied : mem'.denied = mem.denied
  diagnostic : mem'.diagnostic = mem.diagnostic

theorem Mem.Frees.trans (first : mem.Frees mem') (second : mem'.Frees mem'') : mem.Frees mem'' where
  stray := second.stray.trans first.stray
  denied := second.denied.trans first.denied
  diagnostic := second.diagnostic.trans first.diagnostic

theorem mExtfree_frees : mem.Frees (mExtfree m mem).2 := by
  unfold mExtfree mExtunref
  cases m.ext with
  | none => exact ⟨rfl, rfl, rfl⟩
  | some e =>
    by_cases refs : mclisreferenced m mem = true
    · rw [if_pos refs]
      exact ⟨rfl, rfl, rfl⟩
    · rw [if_neg refs]
      exact ⟨rfl, rfl, rfl⟩

/-- The rings are not changed by an mbuf that is alone in its ring. -/
theorem mExtfree_nextref (alone : mReadonly m mem = false) :
    (mExtfree m mem).2.nextref = mem.nextref := by
  unfold mReadonly at alone
  unfold mExtfree mExtunref
  cases is : m.ext with
  | none => rfl
  | some e =>
    rw [is] at alone
    rw [if_neg (by rw [(Bool.or_eq_false_iff.mp alone).2]; exact Bool.false_ne_true)]

theorem mZero_frees (ok : mem.diagnostic = true → mReadonly m mem = false) :
    ∃ mem', mZero m mem = some mem' ∧ mem.Frees mem' ∧ mem'.nextref = mem.nextref := by
  unfold mZero
  rw [kassert_of_holds ok]
  refine ⟨_, rfl, ?_⟩
  cases is : m.ext with
  | none =>
    rw [Mbuf.put_dat is, stray_of_inside le_rfl (zeros_fit m)]
    exact ⟨⟨rfl, rfl, rfl⟩, rfl⟩
  | some e =>
    rw [Mbuf.put_ext is, stray_of_inside le_rfl (zeros_fit m)]
    exact ⟨⟨rfl, rfl, rfl⟩, rfl⟩

/-- An mbuf without external storage leaves nothing behind. -/
theorem mFree_of_empty (empty : m.ext = none) : mFree m mem = some mem := by
  have free : mExtfree m mem = (m, mem) := by
    rw [mExtfree, empty]
  unfold mFree
  cases m.zeroize with
  | false =>
    rw [if_neg Bool.false_ne_true, free]
  | true =>
    have zero : mZero m mem = some mem := by
      unfold mZero
      rw [kassert_of_holds fun _ => mReadonly_of_empty empty, Mbuf.put_dat empty,
        stray_of_inside le_rfl (zeros_fit m)]
      rfl
    rw [if_pos rfl, zero, map_some, free]

theorem mFreem_of_empty (empty : m.ext = none) : mFreem [m] mem = some mem := by
  unfold mFreem freeLoop
  dsimp only
  rw [mFree_of_empty (m := mark false m) empty]
  rfl

theorem mReadonly_congr (same : mem'.nextref m.id = mem.nextref m.id) :
    mReadonly m mem' = mReadonly m mem := by
  unfold mReadonly mclisreferenced
  rw [same]

/-- An mbuf is freed, and the rings of the others are kept if it is alone in its ring. -/
theorem mFree_frees (ok : mem.diagnostic = true → m.zeroize = true → mReadonly m mem = false) :
    ∃ mem', mFree m mem = some mem' ∧ mem.Frees mem' ∧
      (mReadonly m mem = false → mem'.nextref = mem.nextref) := by
  unfold mFree
  cases marked : m.zeroize with
  | false => exact ⟨_, rfl, mExtfree_frees, mExtfree_nextref⟩
  | true =>
    obtain ⟨mem', zero, frees, next⟩ := mZero_frees fun checks => ok checks marked
    rw [zero]
    refine ⟨_, rfl, frees.trans mExtfree_frees, fun alone => ?_⟩
    exact (mExtfree_nextref ((mReadonly_congr (congrFun next m.id)).trans alone)).trans next

theorem freeLoop_frees (ok : mem.diagnostic = false ∨
      (zeroize = false ∧ ∀ m ∈ chain, m.zeroize = false) ∨ ∀ m ∈ chain, mReadonly m mem = false) :
    ∃ mem', freeLoop zeroize chain mem = some mem' ∧ mem.Frees mem' := by
  induction chain generalizing zeroize mem with
  | nil => exact ⟨mem, rfl, rfl, rfl, rfl⟩
  | cons m rest ih =>
    obtain ⟨mem', free, frees, next⟩ : ∃ mem', mFree (mark zeroize m) mem = some mem' ∧
        mem.Frees mem' ∧ (mReadonly m mem = false → mem'.nextref = mem.nextref) := by
      refine mFree_frees fun checks marked => ?_
      rcases ok with off | ⟨rfl, plain⟩ | alone
      · rw [off] at checks
        cases checks
      · rw [mark, plain m mem_cons_self] at marked
        cases marked
      · exact alone m mem_cons_self
    have ok' : mem'.diagnostic = false ∨
        ((mark zeroize m).zeroize = false ∧ ∀ m ∈ rest, m.zeroize = false) ∨
          ∀ m ∈ rest, mReadonly m mem' = false := by
      rcases ok with off | ⟨rfl, plain⟩ | alone
      · exact .inl (frees.diagnostic.trans off)
      · refine .inr (.inl ⟨?_, fun m' member => plain m' (mem_cons_of_mem m member)⟩)
        rw [mark, plain m mem_cons_self]
        rfl
      · exact .inr (.inr fun m' member =>
          (mReadonly_congr (congrFun (next (alone m mem_cons_self)) m'.id)).trans
            (alone m' (mem_cons_of_mem m member)))
    obtain ⟨last, loop, frees'⟩ := ih ok'
    refine ⟨last, ?_, frees.trans frees'⟩
    rw [freeLoop, free]
    exact loop

theorem Releasable.mFreem (ok : Releasable chain mem) :
    ∃ mem', mFreem chain mem = some mem' ∧ mem.Frees mem' :=
  freeLoop_frees (ok.imp_right (.imp_left fun plain => ⟨rfl, plain⟩))

/-! ### One mbuf of a copy -/

/-- What a new mbuf of a copy has after it has been filled. -/
structure Filled (deep : Bool) (m : Mbuf) (off len : Nat) (n : Mbuf) (mem : Mem) (n' : Mbuf)
    (mem' : Mem) : Prop where
  keeps : mem.Keeps mem'
  id : n'.id = n.id
  pkthdr : n'.pkthdr = n.pkthdr
  zeroize : n'.zeroize = n.zeroize
  inside : n'.Inside
  known : n'.Known mem'
  le : n'.len ≤ min len (m.len - off)
  pos : 0 < len → off < m.len → 0 < n'.len
  bytes : n'.bytes mem' = window (m.area mem) (m.data + off) n'.len
  empty : m.ext = none → n'.ext = none
  whole : deep = false → n'.len = min len (m.len - off)
  alone : deep = true → mReadonly n' mem' = false
  nextref : deep = true → ∀ i, i ≠ n.id → mem'.nextref i = mem.nextref i

/-- Copying into the data area of the new mbuf itself. -/
theorem Filled.of_put {count : Nat} (empty : n.ext = none) (start : n.data = n.base)
    (fits : n.base + count ≤ mlen) (le : count ≤ min len (m.len - off))
    (whole : deep = false → count = min len (m.len - off))
    (pos : 0 < len → off < m.len → 0 < count) :
    Filled deep m off len n mem
      (Mbuf.put { n with len := count } n.data (window (m.area mem) (m.data + off) count) mem).1
      (Mbuf.put { n with len := count } n.data (window (m.area mem) (m.data + off) count)
        mem).2 := by
  have inside : n.data + (window (m.area mem) (m.data + off) count).length ≤
      ({ n with len := count } : Mbuf).limit := by
    rw [Mbuf.limit_of_empty (m := { n with len := count }) empty, length_window, start]
    exact fits
  have base : ({ n with len := count } : Mbuf).base ≤ n.data := by
    rw [start]
    exact le_rfl
  rw [Mbuf.put_dat (m := { n with len := count }) empty, stray_of_inside base inside]
  refine ⟨.refl mem, rfl, rfl, rfl, ⟨base, ?_⟩, ?_, le, pos, ?_, fun _ => empty, whole, fun _ => ?_,
    fun _ _ _ => rfl⟩
  · rw [length_window] at inside
    exact inside
  · intro e is
    rw [show n.ext = some e from is] at empty
    cases empty
  · unfold Mbuf.bytes Mbuf.area
    rw [empty]
    have copied := window_copyIn n.dat n.data (window (m.area mem) (m.data + off) count)
    rw [length_window] at copied
    exact copied
  · exact mReadonly_of_empty empty

/-- A new cluster leaves the others alone. -/
theorem mextadd_keeps {size : Nat} {wr : Bool} : mem.Keeps (mextadd n size wr fill mem).2 where
  cls := Nat.le_succ _
  mbufs := le_rfl
  clusters _ less := update_of_ne (ne_of_lt less) _ _
  stray := rfl
  denied := le_rfl
  diagnostic := rfl

/-- Copying into a new cluster. -/
theorem Filled.of_cluster (off len count : Nat) {new : Mbuf × Mem}
    (isNew : new = mextadd n mclbytes true fill mem) (isExt : m.ext = some e) (known : m.Known mem)
    (fits : count ≤ mclbytes) (le : count ≤ min len (m.len - off))
    (pos : 0 < len → off < m.len → 0 < count) :
    Filled true m off len n mem (Mbuf.put { new.1 with len := count } new.1.data
        (window (m.area new.2) (m.data + off) count) new.2).1
      (Mbuf.put { new.1 with len := count } new.1.data
        (window (m.area new.2) (m.data + off) count) new.2).2 := by
  have same : m.area new.2 = m.area mem := by
    rw [isNew]
    exact known.area mextadd_keeps
  rw [same]
  subst isNew
  have inside : 0 + (window (m.area mem) (m.data + off) count).length ≤ mclbytes := by
    rw [length_window, zero_add]
    exact fits
  rw [Mbuf.put_ext (e := ⟨mem.cls, mclbytes, true⟩) rfl, stray_of_inside (Nat.zero_le _) inside]
  refine ⟨⟨Nat.le_succ _, le_rfl, ?_, rfl, le_rfl, rfl⟩, rfl, rfl, rfl, ⟨Nat.zero_le _, ?_⟩, ?_, le,
    pos, ?_, by simp [isExt], nofun, fun _ => ?_, fun _ i other => ?_⟩
  · intro c less
    show update (update mem.clusters mem.cls fill) mem.cls _ c = mem.clusters c
    rw [update_of_ne (ne_of_lt less), update_of_ne (ne_of_lt less)]
  · show 0 + count ≤ mclbytes
    rw [zero_add]
    exact fits
  · rintro e is
    cases is
    exact Nat.lt_succ_self mem.cls
  · show window (update (update mem.clusters mem.cls fill) mem.cls _ mem.cls) 0
      count = _
    rw [update_self]
    have copied := window_copyIn (update mem.clusters mem.cls fill mem.cls) 0
      (window (m.area mem) (m.data + off) count)
    rw [length_window] at copied
    exact copied
  · show (!true || update mem.nextref n.id n.id n.id != n.id) = false
    rw [update_self, bne_self_eq_false]
    rfl
  · exact update_of_ne other _ _

/-- Sharing the cluster. -/
theorem Filled.of_extref (inside : m.Inside) (known : m.Known mem) (shared : m.ext.isSome = true)
    (offLe : off ≤ m.len) :
    let new := mExtref m { n with len := min len (m.len - off), data := m.data + off } mem
    Filled false m off len n mem new.1 new.2 := by
  intro new
  obtain ⟨e, is⟩ := isSome_iff_exists.mp shared
  refine ⟨⟨le_rfl, le_rfl, fun _ _ => rfl, rfl, le_rfl, rfl⟩, rfl, rfl, rfl, ?_, known, le_rfl, ?_,
    ?_, fun empty => empty, fun _ => rfl, by simp, by simp⟩
  · have last := inside.le_size is
    refine Mbuf.inside_of_ext is ?_
    show m.data + off + min len (m.len - off) ≤ e.size
    omega
  · intro pos less
    exact Nat.lt_min.mpr ⟨pos, Nat.sub_pos_of_lt less⟩
  · rw [Mbuf.bytes, Mbuf.area_of_ext (m := new.1) is, Mbuf.area_of_ext is]
    rfl

theorem Filled.of_pool (pool : List (Option Junk)) (le : mem.denied ≤ denied)
    (le' : mem.mbufs ≤ mbufs)
    (filled : Filled deep m off len n { mem with pool := pool, denied := denied, mbufs := mbufs }
      n' mem') :
    Filled deep m off len n mem n' mem' :=
  { filled with keeps := (mem.keeps_pool pool le le').trans filled.keeps }

/-- A new mbuf is filled. -/
theorem copyInto_filled (deep : Bool) (inside : m.Inside) (known : m.Known mem)
    (offLe : off ≤ m.len) (empty : n.ext = none) (start : n.data = n.base)
    (room : m.ext = none → n.base + min len (m.len - off) ≤ mlen) :
    ∃ n' mem', copyInto deep m off len n mem = some (n', mem') ∧
      Filled deep m off len n mem n' mem' := by
  have below : n.base < mlen :=
    lt_of_lt_of_le (Nat.lt_add_of_pos_right (by decide)) (Mbuf.room_of_empty empty)
  unfold copyInto
  cases is : m.ext with
  | none =>
    exact ⟨_, _, rfl, .of_put empty start (room is) le_rfl (fun _ => rfl) fun pos less =>
      Nat.lt_min.mpr ⟨pos, Nat.sub_pos_of_lt less⟩⟩
  | some e =>
    rw [isSome_some, if_pos rfl]
    cases deep with
    | false =>
      exact ⟨_, _, rfl, .of_extref inside known (by rw [is]; rfl) offLe⟩
    | true =>
      rcases mClget_cases (show mClpool mclbytes = some mclbytes by decide)
        { n with len := min len (m.len - off) } mem with ⟨pool, get⟩ | ⟨junk, pool, get⟩
      · -- without a cluster, as much is copied as the mbuf itself has room for
        have room : mTrailingspace { n with len := 0 }
            { mem with pool := pool, denied := mem.denied + 1 } = mlen - n.base := by
          rw [mTrailingspace, mReadonly_of_empty (m := { n with len := 0 }) empty,
            Mbuf.limit_of_empty (m := { n with len := 0 }) empty, start]
          rfl
        rw [get]
        refine ⟨_, _, rfl, .of_pool pool (Nat.le_succ _) le_rfl
          (.of_put empty start ?_ ?_ nofun ?_)⟩
        · show n.base + min (min (mTrailingspace { n with len := 0 } _) len) (m.len - off) ≤ mlen
          omega
        · omega
        · intro pos less
          rw [room]
          omega
      · have room : mTrailingspace
            { (mextadd { n with len := min len (m.len - off) } mclbytes true junk.fill
              { mem with pool := pool }).1 with len := 0 }
            (mextadd { n with len := min len (m.len - off) } mclbytes true junk.fill
              { mem with pool := pool }).2 = mclbytes := by
          unfold mTrailingspace
          rw [if_neg]
          · rfl
          · show ¬(!true || update mem.nextref n.id n.id n.id != n.id) = true
            rw [update_self, bne_self_eq_false]
            exact Bool.false_ne_true
        generalize isNew : mextadd { n with len := min len (m.len - off) } mclbytes true junk.fill
          { mem with pool := pool } = new at get room
        rw [get]
        have filled := Filled.of_cluster off len (min (min mclbytes len) (m.len - off))
          isNew.symm is known (by omega) (by omega) fun pos less => by
            have : 0 < mclbytes := by decide
            omega
        rw [← room] at filled
        exact ⟨_, _, rfl, .of_pool pool le_rfl le_rfl { filled with }⟩

/-! ### The loop -/

/-- The first mbuf of a chain has a given packet header or none, the others have none. -/
def Headers (hdr : Option Pkthdr) : Chain → Prop
  | [] => True
  | m :: rest => m.pkthdr = hdr ∧ ∀ m ∈ rest, m.pkthdr = none

theorem Headers.all_none (headers : Headers none chain) : ∀ m ∈ chain, m.pkthdr = none := by
  cases chain with
  | nil => nofun
  | cons m rest => exact forall_mem_cons.mpr headers

/-- The number of bytes that are copied. -/
def copyCount (chain : Chain) (off len : Nat) : Nat :=
  if len = mCopyall then chain.total - off else len

/-- What the loop adds to the mbufs that have been made. -/
structure Copying (hdr : Option Pkthdr) (chain : Chain) (off len : Nat) (mem : Mem) (new : Chain)
    (mem' : Mem) : Prop where
  keeps : mem.Keeps mem'
  bytes : new.bytes mem' = ((chain.bytes mem).drop off).take (copyCount chain off len)
  headers : Headers hdr new
  inside : ∀ m ∈ new, m.Inside

/-- The packet header of the first mbuf that the loop makes. -/
def copyHeader (m0 : Mbuf) (copyhdr : Bool) (len : Nat) : Option Pkthdr :=
  if copyhdr then if len = mCopyall then m0.pkthdr else some ⟨len⟩ else none

/-- A new mbuf, before it is filled. -/
structure Fresh (m0 : Mbuf) (copyhdr : Bool) (len id : Nat) (n : Mbuf) : Prop where
  id : n.id = id
  ext : n.ext = none
  data : n.data = n.base
  base : n.base = if copyhdr then mPktdat else 0
  pkthdr : n.pkthdr = copyHeader m0 copyhdr len
  zeroize : n.zeroize = (copyhdr && m0.zeroize)

theorem Fresh.plain (m0 : Mbuf) (len id size : Nat) (fill : Nat → Byte) :
    Fresh m0 false len id ⟨id, none, false, none, 0, size, fill⟩ :=
  ⟨rfl, rfl, rfl, rfl, rfl, rfl⟩

theorem Fresh.header (isHdr : m0.pkthdr.isSome = true) (len id size : Nat) (fill : Nat → Byte) :
    Fresh m0 true len id ⟨id, if len ≠ mCopyall then some ⟨len⟩ else m0.pkthdr, m0.zeroize, none,
      mPktdat, size, fill⟩ := by
  have base : Mbuf.base ⟨id, if len ≠ mCopyall then some ⟨len⟩ else m0.pkthdr, m0.zeroize, none,
      mPktdat, size, fill⟩ = mPktdat := by
    refine if_pos ?_
    split_ifs
    · rfl
    · exact isHdr
  refine ⟨rfl, rfl, base.symm, base, ?_, rfl⟩
  rw [copyHeader, if_pos rfl, ite_not]

/-- A new mbuf gets the packet header, or there is no memory for it. -/
theorem copyPkthdr_cases (hdr : copyhdr = true → m0.pkthdr.isSome = true) (len i size : Nat)
    (fill : Nat → Byte) (mem : Mem) :
    (∃ n' pool, copyhdr = true ∧
      copyPkthdr m0 copyhdr len ⟨i, none, false, none, 0, size, fill⟩ mem =
        some (n', true, { mem with pool := pool, denied := mem.denied + 1 }) ∧ n'.ext = none) ∨
      ∃ n' pool, copyPkthdr m0 copyhdr len ⟨i, none, false, none, 0, size, fill⟩ mem =
          some (n', false, { mem with pool := pool }) ∧ Fresh m0 copyhdr len i n' := by
  unfold copyPkthdr
  cases copyhdr with
  | false => exact .inr ⟨_, mem.pool, rfl, .plain m0 len i size fill⟩
  | true =>
    rcases mDupPkthdr_cases (hdr rfl) ⟨i, none, false, none, 0, size, fill⟩ mem with
      ⟨pool, dup⟩ | ⟨pool, dup⟩
    · rw [dup]
      refine .inl ⟨_, pool, rfl, rfl, ?_⟩
      split_ifs <;> rfl
    · rw [dup]
      refine .inr ⟨_, pool, rfl, ?_⟩
      have fresh := Fresh.header (hdr rfl) len i size fill
      by_cases all : len ≠ mCopyall
      · rw [if_pos all] at fresh ⊢
        exact fresh
      · rw [if_neg all] at fresh ⊢
        exact fresh

/-- The part of a copy that one mbuf holds, and the rest of it. -/
theorem window_append_rest (mem : Mem) (le : off + k ≤ m.len) :
    (Chain.bytes (m :: rest) mem).drop off =
      window (m.area mem) (m.data + off) k ++ (Chain.bytes (m :: rest) mem).drop (off + k) := by
  rw [Chain.bytes_cons, drop_append_of_le_length (by rw [Mbuf.length_bytes]; omega),
    drop_append_of_le_length (by rw [Mbuf.length_bytes]; omega), ← append_assoc]
  congr 1
  unfold Mbuf.bytes
  rw [drop_window, drop_window, show m.len - off = k + (m.len - (off + k)) by omega, window_add,
    add_assoc]

/-- A new mbuf with what follows it. -/
theorem Copying.cons {new : Chain} {hdr : Option Pkthdr} {rest' : Chain} {off' len' : Nat}
    (filled : Filled deep m off len n mem n' mem') (isHdr : n.pkthdr = hdr)
    (copied : Copying none rest' off' len' mem' new mem'')
    (rest_eq : (Chain.bytes rest' mem').drop off' =
      (Chain.bytes (m :: rest) mem).drop (off + n'.len)) (le : off + n'.len ≤ m.len)
    (count : copyCount (m :: rest) off len = n'.len + copyCount rest' off' len') :
    Copying hdr (m :: rest) off len mem (n' :: new) mem'' where
  keeps := filled.keeps.trans copied.keeps
  bytes := by
    have parts : (window (m.area mem) (m.data + off) n'.len ++
        (Chain.bytes (m :: rest) mem).drop (off + n'.len)).take
          ((window (m.area mem) (m.data + off) n'.len).length + copyCount rest' off' len') = _ :=
      take_length_add_append _
    rw [length_window, ← window_append_rest mem le, ← count] at parts
    rw [Chain.bytes_cons, filled.known.bytes copied.keeps, filled.bytes, copied.bytes, rest_eq,
      parts]
  headers := ⟨filled.pkthdr.trans isHdr, copied.headers.all_none⟩
  inside := forall_mem_cons.mpr ⟨filled.inside, copied.inside⟩

/-- No mbuf with a cluster is copied but the last one. -/
def LastShared (chain : Chain) (off len : Nat) : Prop :=
  ∀ pre m rest, chain = pre ++ m :: rest → m.ext.isSome = true →
    if len = mCopyall then rest = [] ∧ m.len ≤ mCopyall else off + len ≤ Chain.total (pre ++ [m])

/-- The mbufs that have been made can be freed again, or none will be made any more. -/
structure Undoable (deep : Bool) (chain : Chain) (off len : Nat) (top : Chain) (mem : Mem) :
    Prop where
  old : ∀ m ∈ top, m.id < mem.mbufs
  free : mem.diagnostic = false ∨ (∀ m ∈ top, m.zeroize = false) ∨
    (deep = true ∧ ∀ m ∈ top, mReadonly m mem = false) ∨
    (deep = false ∧ (∀ m ∈ top, m.ext = none) ∧ LastShared chain off len) ∨ chain = [] ∨ len = 0

theorem Undoable.releasable (undo : Undoable deep (m :: rest) off len top mem) (more : len ≠ 0) :
    Releasable top { mem with pool := pool, denied := denied, mbufs := mbufs } := by
  rcases undo.free with checks | clean | ⟨-, alone⟩ | ⟨-, empty, -⟩ | none | done
  · exact .inl checks
  · exact .inr (.inl clean)
  · exact .inr (.inr alone)
  · exact .inr (.inr fun m member => mReadonly_of_empty (empty m member))
  · cases none
  · exact absurd done more

/-- The number of bytes that are left to copy. -/
def lenLeft (len k : Nat) : Nat :=
  if len ≠ mCopyall then len - k else len

/-- The first mbuf is copied, and the ones behind it are left. -/
theorem LastShared.next (last : LastShared (m :: rest) off len) (limit : len ≤ mCopyall)
    (inside : m.Inside) (offLe : off ≤ m.len) (isLen : k = min len (m.len - off)) :
    (m.ext = none ∧ off + k = m.len ∧ LastShared rest 0 (lenLeft len k)) ∨
      (off + k = m.len ∧ rest = []) ∨ lenLeft len k = 0 := by
  cases is : m.ext with
  | some e =>
    have here := last [] m rest rfl (by rw [is]; rfl)
    by_cases all : len = mCopyall
    · rw [if_pos all] at here
      exact .inr (.inl ⟨by omega, here.1⟩)
    · rw [if_neg all, nil_append, Chain.total_cons] at here
      change off + len ≤ m.len + 0 at here
      refine .inr (.inr ?_)
      rw [lenLeft, if_pos all]
      omega
  | none =>
    have short := inside.le_mlen is
    have : mlen < mCopyall := by decide
    by_cases whole : m.len - off ≤ len
    · refine .inl ⟨rfl, by omega, fun pre x after isRest shared => ?_⟩
      have later := last (m :: pre) x after (by rw [isRest]; rfl) shared
      rw [cons_append, Chain.total_cons] at later
      by_cases all : len = mCopyall
      · rw [if_pos all] at later
        rw [lenLeft, if_neg (not_not.mpr all), if_pos all]
        exact later
      · rw [if_neg all] at later
        rw [lenLeft, if_pos all, if_neg (by omega)]
        omega
    · refine .inr (.inr ?_)
      rw [lenLeft, if_pos (by omega)]
      omega

theorem Undoable.snoc {rest' : Chain} {off' : Nat}
    (undo : Undoable deep (m :: rest) off len top mem)
    (filled : Filled deep m off len n { mem with pool := pool, mbufs := mem.mbufs + 1 } n' mem')
    (isNew : n.id = mem.mbufs) (more : len ≠ 0) (limit : len ≤ mCopyall) (inside : m.Inside)
    (offLe : off ≤ m.len) (next : off + n'.len = m.len → rest' = rest ∧ off' = 0)
    (clean : n.zeroize = true → top = [] ∧
      (mem.diagnostic = false ∨ deep = true ∨ LastShared (m :: rest) off len)) :
    Undoable deep rest' off' (lenLeft len n'.len) (top ++ [n']) mem' := by
  have old : ∀ m ∈ top, m.id < mem'.mbufs := fun m member =>
    (undo.old m member).trans (Nat.lt_of_succ_le filled.keeps.mbufs)
  have shares (isShallow : deep = false) (empty : ∀ m ∈ top, m.ext = none)
      (last : LastShared (m :: rest) off len) :
      (deep = false ∧ (∀ m ∈ top ++ [n'], m.ext = none) ∧
        LastShared rest' off' (lenLeft len n'.len)) ∨ rest' = [] ∨ lenLeft len n'.len = 0 := by
    rcases last.next limit inside offLe (filled.whole isShallow) with
      ⟨plain, whole, last'⟩ | ⟨whole, isNil⟩ | done
    · obtain ⟨rfl, rfl⟩ := next whole
      exact .inl ⟨isShallow, forall_mem_append.mpr
        ⟨empty, forall_mem_singleton.mpr (filled.empty plain)⟩, last'⟩
    · exact .inr (.inl ((next whole).1.trans isNil))
    · exact .inr (.inr done)
  refine ⟨forall_mem_append.mpr ⟨old, forall_mem_singleton.mpr ?_⟩, ?_⟩
  · rw [filled.id, isNew]
    exact Nat.lt_of_succ_le filled.keeps.mbufs
  · rcases undo.free with checks | free | ⟨isDeep, free⟩ | ⟨isShallow, empty, last⟩ | none | done
    · exact .inl (filled.keeps.diagnostic.trans checks)
    · cases marked : n.zeroize with
      | false =>
        refine .inr (.inl (forall_mem_append.mpr ⟨free, forall_mem_singleton.mpr ?_⟩))
        rw [filled.zeroize]
        exact marked
      | true =>
        obtain ⟨rfl, ways⟩ := clean marked
        cases deep with
        | true => exact .inr (.inr (.inl ⟨rfl, forall_mem_singleton.mpr (filled.alone rfl)⟩))
        | false =>
          rcases ways with checks | isDeep | last
          · exact .inl (filled.keeps.diagnostic.trans checks)
          · cases isDeep
          · exact .inr (.inr (.inr (shares rfl nofun last)))
    · -- the rings of the other mbufs are as before
      have same : ∀ m ∈ top, mReadonly m mem' = mReadonly m mem := fun m member =>
        mReadonly_congr (filled.nextref isDeep m.id (isNew ▸ ne_of_lt (undo.old m member)))
      exact .inr (.inr (.inl ⟨isDeep, forall_mem_append.mpr
        ⟨fun m member => (same m member).trans (free m member),
          forall_mem_singleton.mpr (filled.alone isDeep)⟩⟩))
    · exact .inr (.inr (.inr (shares isShallow empty last)))
    · cases none
    · exact absurd done more

/-- Where the loop goes on, after `k` bytes of the first mbuf. -/
structure Position (m : Mbuf) (rest : Chain) (off k : Nat) (rest' : Chain) (off' : Nat) :
    Prop where
  sub : ∀ m' ∈ rest', m' ∈ m :: rest
  start : ∀ m ∈ rest'.head?, off' ≤ m.len
  nil : rest' = [] → off' = 0
  whole : off + k = m.len → rest' = rest ∧ off' = 0
  shorter : rest'.total + rest'.length + off < Chain.total (m :: rest) + (m :: rest).length + off'
  total : rest'.total + (off + k) = Chain.total (m :: rest) + off'
  bytes : ∀ mem, (rest'.bytes mem).drop off' = (Chain.bytes (m :: rest) mem).drop (off + k)

theorem next_position (m0 : Mbuf) (deep : Bool) (rest : Chain) (le : off + k ≤ m.len)
    (pos : off < m.len → 0 < k) :
    ∃ rest' off', Position m rest off k rest' off' ∧
      ∀ (top : Chain) (fuel len : Nat) (mem : Mem),
        (if off + k = m.len then copyLoop m0 deep fuel rest 0 len false top mem
          else copyLoop m0 deep fuel (m :: rest) (off + k) len false top mem) =
        copyLoop m0 deep fuel rest' off' len false top mem := by
  by_cases last : off + k = m.len
  · refine ⟨rest, 0, ⟨fun _ => mem_cons_of_mem m, fun _ _ => Nat.zero_le _, fun _ => rfl,
      fun _ => ⟨rfl, rfl⟩, ?_, ?_, fun mem => ?_⟩, fun _ _ _ _ => if_pos last⟩
    · rw [Chain.total_cons, length_cons]
      omega
    · rw [Chain.total_cons]
      omega
    · rw [Chain.bytes_cons, drop_zero, last, drop_left' (Mbuf.length_bytes m mem)]
  · refine ⟨m :: rest, off + k, ⟨fun _ => id, ?_, nofun, fun whole => absurd whole last, ?_, rfl,
      fun _ => rfl⟩, fun _ _ _ _ => if_neg last⟩
    · intro m' is
      cases is
      exact le
    · omega

/-- What the loop does with a new mbuf. -/
def copyNext (m0 : Mbuf) (deep : Bool) (fuel : Nat) (m : Mbuf) (rest : Chain) (off len : Nat)
    (top : Chain) (n : Mbuf) (mem : Mem) : Option (Chain × Mem) := do
  let (n, mem) ← copyInto deep m off len n mem
  kassert (off + n.len ≤ m.len)
  if off + n.len = m.len then
    copyLoop m0 deep fuel rest 0 (lenLeft len n.len) false (top ++ [n]) mem
  else copyLoop m0 deep fuel (m :: rest) (off + n.len) (lenLeft len n.len) false (top ++ [n]) mem

theorem copyLoop_of_refused (fuel : Nat) (m : Mbuf) (rest : Chain) (more : len ≠ 0)
    (get : mGet mem = (none, mem')) :
    copyLoop m0 deep (fuel + 1) (m :: rest) off len copyhdr top mem =
      (mFreem top mem').map ([], ·) := by
  simp only [copyLoop, if_neg more, get, map_eq_bind]
  rfl

theorem copyLoop_of_new (fuel : Nat) (m : Mbuf) (rest : Chain) (more : len ≠ 0)
    (get : mGet mem = (some n, mem')) (copied : copyPkthdr m0 copyhdr len n mem' =
      some (n', false, mem'')) :
    copyLoop m0 deep (fuel + 1) (m :: rest) off len copyhdr top mem =
      copyNext m0 deep fuel m rest off len top n' mem'' := by
  simp only [copyLoop, if_neg more, get, copied, bind_eq_bind, bind_some, Bool.false_eq_true,
    if_false]
  rfl

/-- One turn of the loop: it goes on with a new mbuf, or frees what has been made. -/
theorem copyLoop_turn (deep : Bool) (fuel : Nat) (m : Mbuf) (rest : Chain) (off : Nat)
    (top : Chain) (mem : Mem) (more : len ≠ 0) (isHdr : copyhdr = true → m0.pkthdr.isSome = true) :
    (∃ made pool mbufs,
      (made = top ∨ copyhdr = true ∧ ∃ n : Mbuf, n.ext = none ∧ made = top ++ [n]) ∧
      copyLoop m0 deep (fuel + 1) (m :: rest) off len copyhdr top mem =
        (mFreem made { mem with pool := pool, denied := mem.denied + 1, mbufs := mbufs }).map
          ([], ·)) ∨
    ∃ n pool, Fresh m0 copyhdr len mem.mbufs n ∧
      copyLoop m0 deep (fuel + 1) (m :: rest) off len copyhdr top mem =
        copyNext m0 deep fuel m rest off len top n
          { mem with pool := pool, mbufs := mem.mbufs + 1 } := by
  rcases mGet_cases mem with ⟨pool, get⟩ | ⟨junk, pool, get⟩
  · exact .inl ⟨top, pool, mem.mbufs, .inl rfl, copyLoop_of_refused fuel m rest more get⟩
  · rcases copyPkthdr_cases isHdr len mem.mbufs junk.len junk.fill
      { mem with pool := pool, mbufs := mem.mbufs + 1 } with
      ⟨n, pool', hdr, copied, empty⟩ | ⟨n, pool', copied, fresh⟩
    · refine .inl ⟨top ++ [n], pool', mem.mbufs + 1, .inr ⟨hdr, n, empty, rfl⟩, ?_⟩
      simp only [copyLoop, if_neg more, get, copied, bind_eq_bind, bind_some, if_true, map_eq_bind]
      rfl
    · exact .inr ⟨n, pool', fresh, copyLoop_of_new fuel m rest more get copied⟩

/-- What holds at the start of each turn.  If the packet header is still to be copied, nothing has
been made yet. -/
structure CopyReady (m0 : Mbuf) (deep : Bool) (chain : Chain) (off len : Nat) (copyhdr : Bool)
    (top : Chain) (mem : Mem) : Prop where
  inside : ∀ m ∈ chain, m.Inside
  known : ∀ m ∈ chain, m.Known mem
  start : ∀ m ∈ chain.head?, off ≤ m.len
  startNil : chain = [] → off = 0
  limit : len ≤ mCopyall
  bounds : len = mCopyall ∨ off + len ≤ chain.total
  isHdr : copyhdr = true → m0.pkthdr.isSome = true ∧ top = []
  clean : copyhdr = true → m0.zeroize = true →
    mem.diagnostic = false ∨ deep = true ∨ LastShared chain off len
  room : copyhdr = true → ∀ m ∈ chain.head?, m.ext = none → min len (m.len - off) ≤ mhlen
  undo : Undoable deep chain off len top mem

theorem CopyReady.next {rest' : Chain} {off' : Nat}
    (ready : CopyReady m0 deep (m :: rest) off len copyhdr top mem) (more : len ≠ 0)
    (filled : Filled deep m off len n { mem with pool := pool, mbufs := mem.mbufs + 1 } n' mem')
    (fresh : Fresh m0 copyhdr len mem.mbufs n) (pos : Position m rest off n'.len rest' off') :
    CopyReady m0 deep rest' off' (lenLeft len n'.len) false (top ++ [n']) mem' where
  inside m' member := ready.inside m' (pos.sub m' member)
  known m' member := (show m'.Known { mem with pool := pool, mbufs := mem.mbufs + 1 } from
    ready.known m' (pos.sub m' member)).keeps filled.keeps
  start := pos.start
  startNil := pos.nil
  limit := by
    have := ready.limit
    unfold lenLeft
    split_ifs <;> omega
  bounds := by
    have := ready.bounds
    have := pos.total
    have := filled.le
    unfold lenLeft
    split_ifs <;> omega
  isHdr := nofun
  clean := nofun
  room := nofun
  undo := by
    refine ready.undo.snoc filled fresh.id more ready.limit (ready.inside m mem_cons_self)
      (ready.start m rfl) pos.whole fun marked => ?_
    rw [fresh.zeroize, Bool.and_eq_true] at marked
    exact ⟨(ready.isHdr marked.1).2, ready.clean marked.1 marked.2⟩

/-- A new mbuf is filled, and there is room for the data behind its packet header. -/
theorem CopyReady.filled (ready : CopyReady m0 deep (m :: rest) off len copyhdr top mem)
    (pool : List (Option Junk)) (fresh : Fresh m0 copyhdr len mem.mbufs n) :
    ∃ n' mem', copyInto deep m off len n { mem with pool := pool, mbufs := mem.mbufs + 1 } =
        some (n', mem') ∧
      Filled deep m off len n { mem with pool := pool, mbufs := mem.mbufs + 1 } n' mem' := by
  have inside := ready.inside m mem_cons_self
  refine copyInto_filled deep inside (ready.known m mem_cons_self) (ready.start m rfl) fresh.ext
    fresh.data fun plain => ?_
  rw [fresh.base]
  split_ifs with isHdr
  · have := ready.room isHdr m rfl plain
    have : mPktdat + mhlen = mlen := by decide
    omega
  · have := inside.le_mlen plain
    omega

/-- What has been made can be freed when there is no memory for more. -/
theorem CopyReady.mFreem {made : Chain}
    (ready : CopyReady m0 deep (m :: rest) off len copyhdr top mem) (more : len ≠ 0)
    (isMade : made = top ∨ copyhdr = true ∧ ∃ n : Mbuf, n.ext = none ∧ made = top ++ [n])
    (pool : List (Option Junk)) (denied mbufs : Nat) :
    ∃ mem', UipcMbuf.mFreem made { mem with pool := pool, denied := denied, mbufs := mbufs } =
      some mem' ∧ mem'.stray = mem.stray ∧ mem'.denied = denied := by
  have free : Releasable made { mem with pool := pool, denied := denied, mbufs := mbufs } := by
    rcases isMade with rfl | ⟨isHdr, n, empty, rfl⟩
    · exact ready.undo.releasable more
    · rw [(ready.isHdr isHdr).2]
      exact .inr (.inr (forall_mem_singleton.mpr (mReadonly_of_empty empty)))
  obtain ⟨mem', freed, frees⟩ := free.mFreem
  exact ⟨mem', freed, frees.stray, frees.denied⟩

/-- The loop copies what it is to copy, or gives up without memory. -/
theorem copyLoop_copies (fuel : Nat) (ready : CopyReady m0 deep chain off len copyhdr top mem)
    (enough : chain.total + chain.length < fuel + off) :
    ∃ copy mem', copyLoop m0 deep fuel chain off len copyhdr top mem = some (copy, mem') ∧
      mem'.stray = mem.stray ∧
      (copy = [] ∧ mem.denied < mem'.denied ∨
        ∃ new, copy = top ++ new ∧
          Copying (copyHeader m0 copyhdr len) chain off len mem new mem') := by
  induction fuel generalizing chain off len copyhdr top mem with
  | zero =>
    cases chain with
    | nil =>
      have := ready.startNil rfl
      omega
    | cons m rest =>
      have := ready.start m rfl
      rw [Chain.total_cons] at enough
      omega
  | succ fuel ih =>
    by_cases done : len = 0
    · subst done
      exact ⟨top, mem, by simp only [copyLoop, if_true], rfl, .inr ⟨[], (append_nil top).symm,
        .refl mem, rfl, trivial, nofun⟩⟩
    · cases chain with
      | nil =>
        have all : len = mCopyall := by
          rcases ready.bounds with all | bounds
          · exact all
          · exact absurd (Nat.le_zero.mp ((Nat.le_add_left len off).trans bounds)) done
        refine ⟨top, mem, by simp only [copyLoop, if_neg done, kassert_of_holds all]; rfl, rfl,
          .inr ⟨[], (append_nil top).symm, .refl mem, ?_, trivial, nofun⟩⟩
        rw [show Chain.bytes [] mem = [] from rfl, drop_nil, take_nil]
      | cons m rest =>
        rcases copyLoop_turn deep fuel m rest off top mem done fun isHdr => (ready.isHdr isHdr).1
          with ⟨made, pool, mbufs, isMade, turn⟩ | ⟨n, pool, fresh, turn⟩
        · obtain ⟨mem', freed, stray, denied⟩ :=
            ready.mFreem done isMade pool (mem.denied + 1) mbufs
          rw [turn, freed]
          exact ⟨[], mem', rfl, stray, .inl ⟨rfl, denied ▸ Nat.lt_succ_self _⟩⟩
        · obtain ⟨n', mem', filling, filled⟩ := ready.filled pool fresh
          have keeps := (mem.keeps_pool pool le_rfl (Nat.le_succ _)).trans filled.keeps
          have offLe := ready.start m rfl
          have lenLe := filled.le
          have le : off + n'.len ≤ m.len := by omega
          obtain ⟨rest', off', pos, isNext⟩ :=
            next_position m0 deep rest le (filled.pos (Nat.pos_of_ne_zero done))
          have next := ready.next done filled fresh pos
          obtain ⟨copy, last, loop, stray, result⟩ := ih next (by have := pos.shorter; omega)
          refine ⟨copy, last, ?_, stray.trans keeps.stray, ?_⟩
          · rw [turn, copyNext, filling, bind_eq_bind, bind_some]
            simp only [kassert_of_holds le, bind_eq_bind, bind_some]
            exact (isNext ..).trans loop
          · rcases result with ⟨isNil, denied⟩ | ⟨new, isCopy, copying⟩
            · exact .inl ⟨isNil, keeps.denied.trans_lt denied⟩
            · refine .inr ⟨n' :: new, by rw [isCopy, append_assoc]; rfl, ?_⟩
              refine .cons (.of_pool pool le_rfl (Nat.le_succ _) filled) fresh.pkthdr copying ?_
                le ?_
              · rw [Chain.bytes_keeps (fun m' member => ready.known m' (pos.sub m' member)) keeps]
                exact pos.bytes mem
              · have := pos.total
                have := ready.limit
                have : Chain.total (m :: rest) = m.len + Chain.total rest := Chain.total_cons
                unfold copyCount lenLeft
                split_ifs <;> omega

/-! ### The copy -/

/-- The position is found in an mbuf of the chain. -/
theorem mGetptr_of_le (some' : chain ≠ []) (le : off ≤ chain.total) :
    ∃ before m after off',
      mGetptr chain off = some (m :: after, off') ∧ chain = before ++ m :: after ∧
      before.total + off' = off ∧ off' ≤ m.len := by
  induction chain generalizing off with
  | nil => exact absurd rfl some'
  | cons m rest ih =>
    rw [Chain.total_cons] at le
    rw [mGetptr]
    by_cases here : off < m.len
    · exact ⟨[], m, rest, off, if_pos here, rfl, zero_add off, here.le⟩
    · rw [if_neg here]
      cases rest with
      | nil =>
        change off ≤ m.len + 0 at le
        refine ⟨[], m, [], m.len, ?_, rfl, ?_, le_rfl⟩
        · rw [isEmpty_nil, if_pos rfl, if_pos (by omega)]
        · show 0 + m.len = off
          omega
      | cons m' rest =>
        obtain ⟨before, m'', after, off', get, isChain, isOff, le'⟩ :=
          ih (cons_ne_nil m' rest) (show off - m.len ≤ _ by omega)
        refine ⟨m :: before, m'', after, off', ?_, by rw [isChain]; rfl, ?_, le'⟩
        · exact get
        · rw [Chain.total_cons]
          omega

/-- A chain whose data lie inside the data areas, with their number in the packet header, if there
is one. -/
structure Chain.Wf (chain : Chain) (mem : Mem) : Prop where
  nonempty : chain ≠ []
  inside : ∀ m ∈ chain, m.Inside
  known : ∀ m ∈ chain, m.Known mem
  header : ∀ m ∈ chain.head?, ∀ hdr ∈ m.pkthdr, hdr.len = chain.total

/-- The copy has the bytes, their number in the packet header, if it has one, and lies inside the
data areas. -/
structure Copied (chain : Chain) (off len : Nat) (mem : Mem) (copy : Chain) (mem' : Mem) :
    Prop where
  bytes : copy.bytes mem' = ((chain.bytes mem).drop off).take (copyCount chain off len)
  headers : Headers
    (if off = 0 then (chain.head?.bind (·.pkthdr)).map fun _ => ⟨copy.total⟩ else none)
    copy
  inside : ∀ m ∈ copy, m.Inside

/-- The packet header of a copy leaves room for the data of the first mbuf that is copied, which
need not be the one with the packet header. -/
def CopyRoom (chain : Chain) (off len : Nat) : Prop :=
  off = 0 → ∀ m0 ∈ chain.head?, m0.pkthdr.isSome = true → ∀ found ∈ mGetptr chain 0,
    ∀ m ∈ found.1.head?, m.ext = none → min len m.len ≤ mhlen

instance (chain : Chain) (off len : Nat) : Decidable (CopyRoom chain off len) := by
  unfold CopyRoom
  infer_instance

/-- The copy of a marked packet header is deep, or it shares no cluster before its last mbuf.  When
there is no memory for a later one, the shared cluster would have to be cleared. -/
def CopyClean (chain : Chain) (off len : Nat) (deep : Bool) : Prop :=
  off = 0 → deep = false → ∀ m0 ∈ chain.head?, m0.pkthdr.isSome = true → m0.zeroize = true →
    ∀ found ∈ mGetptr chain 0, LastShared found.1 0 len

/-- A copy of a part of a chain is right, or there is none because there is no memory. -/
def Copies (chain : Chain) (off len : Nat) (deep : Bool) (mem : Mem) : Prop :=
  ∃ copy mem', mCopym0 chain off len deep mem = some (copy, mem') ∧ mem'.stray = mem.stray ∧
    (copy = [] ∧ mem.denied < mem'.denied ∨ Copied chain off len mem copy mem')

/-- The loop starts at the mbuf that has the first byte. -/
theorem copyReady_of_room {m0 : Mbuf} {before after : Chain} {off' : Nat} (wf : chain.Wf mem)
    (isHead : chain.head? = some m0) (get : mGetptr chain off = some (m :: after, off'))
    (isChain : chain = before ++ m :: after) (isOff : before.total + off' = off)
    (le : off' ≤ m.len) (count : len = mCopyall ∨ off + len ≤ chain.total) (limit : len ≤ mCopyall)
    (room : CopyRoom chain off len) (clean : mem.diagnostic = true → CopyClean chain off len deep) :
    CopyReady m0 deep (m :: after) off' len (decide (off = 0) && m0.pkthdr.isSome) [] mem := by
  have sub : ∀ m' ∈ m :: after, m' ∈ chain := by
    rw [isChain]
    exact fun m' member => mem_append_right before member
  have total : chain.total = before.total + Chain.total (m :: after) := by
    rw [isChain, Chain.total_append]
  have start : ∀ m' ∈ (m :: after).head?, off' ≤ m'.len := by
    intro m' is
    cases is
    exact le
  have copied : (decide (off = 0) && m0.pkthdr.isSome) = true →
      off = 0 ∧ off' = 0 ∧ m0.pkthdr.isSome = true := by
    intro isHdr
    rw [Bool.and_eq_true, decide_eq_true_iff] at isHdr
    exact ⟨isHdr.1, by omega, isHdr.2⟩
  refine ⟨fun m' member => wf.inside m' (sub m' member),
    fun m' member => wf.known m' (sub m' member), start, nofun, limit, by omega,
    fun isHdr => ⟨(copied isHdr).2.2, rfl⟩, fun isHdr marked => ?_, fun isHdr m' is plain => ?_,
    ⟨nofun, .inr (.inl nofun)⟩⟩
  · obtain ⟨rfl, rfl, isHdr⟩ := copied isHdr
    cases checks : mem.diagnostic with
    | false => exact .inl rfl
    | true =>
      cases deep with
      | true => exact .inr (.inl rfl)
      | false => exact .inr (.inr (clean checks rfl rfl m0 isHead isHdr marked _ get))
  · obtain ⟨rfl, rfl, isHdr⟩ := copied isHdr
    exact room rfl m0 isHead isHdr _ get m' is plain

/-- The packet header that the loop makes carries the number of bytes. -/
theorem copyHeader_eq (wf : chain.Wf mem) (isHead : chain.head? = some m0) :
    copyHeader m0 (decide (off = 0) && m0.pkthdr.isSome) len =
      if off = 0 then (chain.head?.bind (·.pkthdr)).map fun _ => ⟨copyCount chain off len⟩
      else none := by
  rw [isHead, bind_some, copyHeader]
  cases isHdr : m0.pkthdr with
  | none => rw [isSome_none, Bool.and_false, if_neg Bool.false_ne_true, map_none, ite_self]
  | some hdr =>
    have isLen := wf.header m0 isHead hdr isHdr
    rw [isSome_some, Bool.and_true, map_some, copyCount]
    by_cases zero : off = 0
    · rw [if_pos (decide_eq_true zero), if_pos zero]
      split_ifs with all
      · rw [zero, Nat.sub_zero, ← isLen]
      · rfl
    · rw [if_neg (by simpa using zero), if_neg zero]

theorem copies_of_room (wf : chain.Wf mem) (bounds : off ≤ chain.total)
    (count : len = mCopyall ∨ off + len ≤ chain.total) (limit : len ≤ mCopyall)
    (room : CopyRoom chain off len) (clean : mem.diagnostic = true → CopyClean chain off len deep) :
    Copies chain off len deep mem := by
  obtain ⟨before, m, after, off', get, isChain, isOff, le⟩ := mGetptr_of_le wf.nonempty bounds
  obtain ⟨m0, isHead⟩ := ne_none_iff_exists'.mp (mt head?_eq_none_iff.mp wf.nonempty)
  have total : chain.total = before.total + Chain.total (m :: after) := by
    rw [isChain, Chain.total_append]
  have length : chain.length = before.length + (m :: after).length := by
    rw [isChain, length_append]
  obtain ⟨copy, mem', loop, stray, result⟩ := copyLoop_copies (chain.total + chain.length + 1)
    (copyReady_of_room wf isHead get isChain isOff le count limit room clean) (by omega)
  refine ⟨copy, mem', ?_, stray, ?_⟩
  · simp only [mCopym0, isHead, get, bind_eq_bind, bind_some]
    exact loop
  · rcases result with ⟨isNil, denied⟩ | ⟨new, isCopy, copying⟩
    · exact .inl ⟨isNil, denied⟩
    · change copy = new at isCopy
      subst isCopy
      have bytes :
          copy.bytes mem' = ((chain.bytes mem).drop off).take (copyCount chain off len) := by
        have counts : copyCount chain off len = copyCount (m :: after) off' len := by
          unfold copyCount
          split_ifs <;> omega
        rw [copying.bytes, counts, isChain, Chain.bytes_append, ← isOff, ← drop_drop,
          drop_left' (Chain.length_bytes before mem)]
      have size : copy.total = copyCount chain off len := by
        rw [← Chain.length_bytes copy mem', bytes, length_take, length_drop,
          Chain.length_bytes, copyCount]
        split_ifs <;> omega
      refine .inr ⟨bytes, ?_, copying.inside⟩
      rw [size, ← copyHeader_eq wf isHead]
      exact copying.headers

/-! ### Copies that are not right -/

/-- The pools have an mbuf, and the memory for a packet header. -/
theorem copyLoop_given (deep : Bool) (fuel : Nat) (m : Mbuf) (rest : Chain) (off : Nat)
    (top : Chain) (mem : Mem) (more : len ≠ 0) (isHdr : copyhdr = true → m0.pkthdr.isSome = true) :
    ∃ front n, Fresh m0 copyhdr len mem.mbufs n ∧
      ∀ pool, copyLoop m0 deep (fuel + 1) (m :: rest) off len copyhdr top
          { mem with pool := front ++ pool } =
        copyNext m0 deep fuel m rest off len top n
          { mem with pool := pool, mbufs := mem.mbufs + 1 } := by
  cases copyhdr with
  | false =>
    exact ⟨[some ⟨0, fun _ => 0⟩], _, .plain m0 len _ _ _,
      fun _ => copyLoop_of_new fuel m rest more rfl rfl⟩
  | true =>
    refine ⟨[some ⟨0, fun _ => 0⟩, some ⟨0, fun _ => 0⟩], _, .header (isHdr rfl) len _ 0 fun _ => 0,
      fun pool => copyLoop_of_new fuel m rest more rfl ?_⟩
    simp only [copyPkthdr, if_true, mDupPkthdr, kassert_of_holds (isHdr rfl), poolGet, List.append,
      bind_eq_bind, bind_some, map_some]
    by_cases all : len ≠ mCopyall
    · rw [if_pos all, if_pos all]
      rfl
    · rw [if_neg all, if_neg all]
      rfl

theorem mGet_of_nil (denied : mem.pool = []) :
    mGet mem = (none, { mem with denied := mem.denied + 1 }) := by
  rw [mGet, poolGet, denied]

/-- Without memory for another mbuf, nothing more is written. -/
theorem copyLoop_denied {fuel : Nat} {copy : Chain} (empty : n.ext = none) (denied : mem.pool = [])
    (found : copyLoop m0 deep fuel chain off len copyhdr [n] mem = some (copy, mem')) :
    mem'.stray = mem.stray := by
  cases fuel with
  | zero => cases found
  | succ fuel =>
    by_cases done : len = 0
    · unfold copyLoop at found
      rw [if_pos done] at found
      cases found
      rfl
    · cases chain with
      | nil =>
        unfold copyLoop at found
        rw [if_neg done] at found
        obtain ⟨_, -, same⟩ := bind_eq_some_iff.mp found
        cases same
        rfl
      | cons m rest =>
        rw [copyLoop_of_refused fuel m rest done (mGet_of_nil denied),
          mFreem_of_empty empty] at found
        cases found
        rfl

/-- The position of the first byte. -/
theorem mGetptr_zero {found : Chain} {off' : Nat} (get : mGetptr chain 0 = some (found, off')) :
    off' = 0 := by
  induction chain with
  | nil => cases get
  | cons m rest ih =>
    rw [mGetptr] at get
    split_ifs at get with here last
    · cases get
      rfl
    · cases get
      omega
    · rw [Nat.zero_sub] at get
      exact ih get

theorem mCopym0_of_head {found : Chain × Nat} (isHead : chain.head? = some m0)
    (isHdr : m0.pkthdr.isSome = true) (get : mGetptr chain 0 = some found) (mem : Mem) :
    mCopym0 chain 0 len deep mem =
      copyLoop m0 deep (chain.total + chain.length + 1) found.1 found.2 len true [] mem := by
  simp only [mCopym0, isHead, get, isHdr, bind_eq_bind, bind_some, decide_true, Bool.and_self]

theorem copyInto_plain (deep : Bool) (off len : Nat) (plain : m.ext = none) (empty : n.ext = none) :
    ∃ n', (∀ mem, copyInto deep m off len n mem = some (n', { mem with
        stray := mem.stray ||
          !decide (n.base ≤ n.data ∧ n.data + min len (m.len - off) ≤ mlen) })) ∧
      n'.ext = none ∧ n'.zeroize = n.zeroize ∧ n'.len = min len (m.len - off) := by
  refine ⟨{ n with
    len := min len (m.len - off)
    dat := copyIn n.dat n.data (window m.dat (m.data + off) (min len (m.len - off))) },
    fun mem => ?_, empty, rfl, rfl⟩
  have area : m.area mem = m.dat := by rw [Mbuf.area, plain]
  simp only [copyInto, plain, isSome_none, Bool.false_eq_true, if_false]
  rw [Mbuf.put_dat (m := { n with len := min len (m.len - off) }) empty, length_window,
    Mbuf.limit_of_empty (m := { n with len := min len (m.len - off) }) empty, area]
  rfl

/-- The packet header takes the room of the data. -/
theorem room_of_copies (unwritten : mem.stray = false)
    (copies : ∀ pool, Copies chain off len deep { mem with pool := pool }) :
    CopyRoom chain off len := by
  rintro rfl m0 isHead isHdr ⟨found, off'⟩ get m isFirst plain
  obtain rfl := mGetptr_zero get
  obtain ⟨rest, rfl⟩ : ∃ rest, found = m :: rest := by
    cases found with
    | nil => cases isFirst
    | cons _ rest => exact ⟨rest, congrArg (· :: rest) (Option.some.inj isFirst)⟩
  by_contra long
  rw [not_le] at long
  obtain ⟨front, n, fresh, given⟩ := copyLoop_given deep (chain.total + chain.length) m
    rest 0 [] mem (by omega : len ≠ 0) (fun _ : true = true => isHdr)
  obtain ⟨copy, mem', copied, stray, -⟩ := copies (front ++ [])
  obtain ⟨n', into, empty', -, isLen⟩ := copyInto_plain deep 0 len plain fresh.ext
  rw [mCopym0_of_head isHead isHdr get, given, copyNext, into, bind_eq_bind, bind_some] at copied
  simp only [isLen, Nat.sub_zero, zero_add, kassert_of_holds (Nat.min_le_right len m.len),
    bind_eq_bind, bind_some] at copied
  have outside : ¬(n.base ≤ n.data ∧ n.data + min len m.len ≤ mlen) := by
    rw [fresh.data, fresh.base, if_pos rfl]
    have : mPktdat + mhlen = mlen := by decide
    omega
  rw [decide_eq_false outside, Bool.not_false, Bool.or_true] at copied
  have written : mem'.stray = true := by
    split_ifs at copied
    · exact copyLoop_denied empty' rfl copied
    · exact copyLoop_denied empty' rfl copied
  rw [written, unwritten] at stray
  cases stray

/-- A marked chain cannot be freed if it shares a cluster. -/
theorem freeLoop_panics (empty : ∀ m ∈ top, m.ext = none) (checks : mem.diagnostic = true)
    (shared : mReadonly n mem = true) : freeLoop true (top ++ [n]) mem = none := by
  induction top with
  | nil =>
    have refused : mZero (mark true n) mem = none := by
      have : ¬(mem.diagnostic = true → mReadonly (mark true n) mem = false) := fun ok =>
        Bool.false_ne_true ((ok checks).symm.trans shared)
      rw [mZero, kassert, if_neg this]
      rfl
    have marked : (mark true n).zeroize = true := Bool.or_true _
    rw [nil_append, freeLoop, mFree, if_pos marked, refused]
    rfl
  | cons m rest ih =>
    have marked : (mark true m).zeroize = true := Bool.or_true _
    obtain ⟨plain, others⟩ := forall_mem_cons.mp empty
    rw [cons_append, freeLoop, mFree_of_empty (m := mark true m) plain, marked]
    exact ih others

theorem mFreem_panics (empty : ∀ m ∈ top, m.ext = none) (checks : mem.diagnostic = true)
    (shared : mReadonly n mem = true) (marked : ∃ m ∈ (top ++ [n]).head?, m.zeroize = true) :
    mFreem (top ++ [n]) mem = none := by
  have same : freeLoop false (top ++ [n]) mem = freeLoop true (top ++ [n]) mem := by
    cases isTop : top ++ [n] with
    | nil => rfl
    | cons m rest =>
      rw [isTop] at marked
      obtain ⟨_, isFirst, marked⟩ := marked
      cases isFirst
      have mark_eq : mark false m = mark true m := by
        rw [mark, mark, marked]
        rfl
      rw [freeLoop, freeLoop, mark_eq]
  exact same.trans (freeLoop_panics empty checks shared)

/-- A cluster is referenced after it has been shared with a new mbuf. -/
theorem mExtref_readonly (mem : Mem) (isExt : m.ext.isSome = true) (new : n.id ≠ m.id)
    (other : mem.nextref m.id ≠ n.id) :
    mReadonly (mExtref m n mem).1 (mExtref m n mem).2 = true := by
  obtain ⟨e, is⟩ := isSome_iff_exists.mp isExt
  have next : update (update mem.nextref n.id (mem.nextref m.id)) m.id n.id n.id ≠ n.id := by
    rwa [update_of_ne new, update_self]
  simp only [mReadonly, mExtref, is, mclisreferenced, Bool.or_eq_true, bne_iff_ne]
  exact .inr next

/-- There is no memory for another mbuf, and those that have been made cannot be freed. -/
theorem copyLoop_none {fuel : Nat}
    (refused : mFreem top { mem with denied := mem.denied + 1 } = none)
    (denied : mem.pool = []) (more : len ≠ 0) (left : chain ≠ []) :
    copyLoop m0 deep fuel chain off len copyhdr top mem = none := by
  cases fuel with
  | zero => rfl
  | succ fuel =>
    obtain ⟨m, rest, rfl⟩ := exists_cons_of_ne_nil left
    rw [copyLoop_of_refused fuel m rest more (mGet_of_nil denied), refused, map_none]

/-- An mbuf is not one that will be handed out, nor is the next one in its ring. -/
def Mbuf.Old (m : Mbuf) (mem : Mem) : Prop :=
  m.id < mem.mbufs ∧ mem.nextref m.id < mem.mbufs

/-- What is made first is marked. -/
def CopyMarked (m0 : Mbuf) (top : Chain) : Bool → Prop
  | true => top = [] ∧ m0.pkthdr.isSome = true ∧ m0.zeroize = true
  | false => ∃ x ∈ top.head?, x.zeroize = true

theorem CopyMarked.isHdr (marked : CopyMarked m0 top copyhdr) :
    copyhdr = true → m0.pkthdr.isSome = true := by
  rintro rfl
  exact marked.2.1

theorem CopyMarked.head (marked : CopyMarked m0 top copyhdr)
    (zeroize : n.zeroize = (copyhdr && m0.zeroize)) : CopyMarked m0 (top ++ [n]) false := by
  cases copyhdr with
  | true =>
    obtain ⟨rfl, -, isMarked⟩ := marked
    exact ⟨n, rfl, zeroize.trans isMarked⟩
  | false =>
    obtain ⟨x, isFirst, isMarked⟩ := marked
    exact ⟨x, by rw [head?_append, show top.head? = some x from isFirst]; rfl, isMarked⟩

/-- The cluster of the first mbuf is shared, and there is no memory for the next one. -/
theorem copyLoop_panics_first (fuel : Nat) (isExt : m.ext.isSome = true) (old : m.Old mem)
    (checks : mem.diagnostic = true) (empty : ∀ x ∈ top, x.ext = none)
    (marked : CopyMarked m0 top copyhdr) (some' : len ≠ 0) (more : lenLeft len (min len m.len) ≠ 0)
    (left : m.len ≤ len → rest ≠ []) :
    ∃ pool, copyLoop m0 false fuel (m :: rest) 0 len copyhdr top { mem with pool := pool } =
      none := by
  cases fuel with
  | zero => exact ⟨[], rfl⟩
  | succ fuel =>
    obtain ⟨front, n, fresh, given⟩ := copyLoop_given false fuel m rest 0 top mem some'
      marked.isHdr
    refine ⟨front ++ [], ?_⟩
    have shared := mExtref_readonly (n := { n with len := min len m.len, data := m.data })
      { mem with pool := [], mbufs := mem.mbufs + 1 } isExt
      (by rw [fresh.id]; exact (ne_of_lt old.1).symm) (by rw [fresh.id]; exact ne_of_lt old.2)
    rw [given, copyNext]
    simp only [copyInto, isExt, if_true, Bool.false_eq_true, if_false, Nat.sub_zero, Nat.add_zero,
      zero_add, mExtref, kassert_of_holds (Nat.min_le_right len m.len), bind_eq_bind, bind_some]
    split_ifs with whole
    · exact copyLoop_none (mFreem_panics empty checks shared (marked.head fresh.zeroize)) rfl more
        (left (by omega))
    · exact copyLoop_none (mFreem_panics empty checks shared (marked.head fresh.zeroize)) rfl more
        (cons_ne_nil _ _)

/-- A cluster is shared before the last mbuf of the copy. -/
theorem copyLoop_panics (fuel : Nat) (pre rest : Chain) (mem : Mem) (isExt : m.ext.isSome = true)
    (inside : ∀ p ∈ pre, p.Inside) (old : ∀ p ∈ pre ++ [m], p.Old mem)
    (checks : mem.diagnostic = true) (empty : ∀ x ∈ top, x.ext = none)
    (marked : CopyMarked m0 top copyhdr)
    (more : if len = mCopyall then rest ≠ [] ∨ mCopyall < m.len else Chain.total (pre ++ [m]) < len)
    (count : len = mCopyall ∨ len ≤ Chain.total (pre ++ m :: rest)) (limit : len ≤ mCopyall) :
    ∃ pool, copyLoop m0 false fuel (pre ++ m :: rest) 0 len copyhdr top { mem with pool := pool } =
      none := by
  have big : mlen < mCopyall := by decide
  induction pre generalizing fuel copyhdr top len mem with
  | nil =>
    rw [nil_append, Chain.total_cons] at more
    rw [nil_append, Chain.total_cons] at count
    change if _ then _ else m.len + 0 < len at more
    refine copyLoop_panics_first fuel isExt (old m (by simp)) checks empty marked ?_ ?_ ?_
    · split_ifs at more <;> omega
    · unfold lenLeft
      split_ifs at more ⊢ <;> omega
    · rintro le rfl
      change _ ∨ len ≤ m.len + 0 at count
      split_ifs at more with all
      · rcases more with none | long
        · exact none rfl
        · omega
      · omega
  | cons p pre ih =>
    rw [cons_append, Chain.total_cons] at more
    rw [cons_append, Chain.total_cons] at count
    obtain ⟨insideP, insidePre⟩ := forall_mem_cons.mp inside
    obtain ⟨oldP, oldPre⟩ := forall_mem_cons.mp (show ∀ q ∈ p :: (pre ++ [m]), _ from old)
    rw [cons_append]
    cases plain : p.ext with
    | some e =>
      refine copyLoop_panics_first fuel (by rw [plain]; rfl) oldP checks empty marked ?_ ?_
        fun _ => append_ne_nil_of_right_ne_nil _ (cons_ne_nil _ _)
      · split_ifs at more <;> omega
      · unfold lenLeft
        split_ifs at more ⊢ <;> omega
    | none =>
      cases fuel with
      | zero => exact ⟨[], rfl⟩
      | succ fuel =>
        have short := insideP.le_mlen plain
        have isLen : min len p.len = p.len := by
          split_ifs at more <;> omega
        obtain ⟨front, n, fresh, given⟩ := copyLoop_given false fuel p
          (pre ++ m :: rest) 0 top mem (show len ≠ 0 by split_ifs at more <;> omega)
          marked.isHdr
        obtain ⟨n', into, empty', zeroize', len'⟩ := copyInto_plain false 0 len plain fresh.ext
        rw [Nat.sub_zero, isLen] at len'
        have more' : if lenLeft len p.len = mCopyall then rest ≠ [] ∨ mCopyall < m.len
            else Chain.total (pre ++ [m]) < lenLeft len p.len := by
          unfold lenLeft
          split_ifs at more ⊢ <;> omega
        obtain ⟨pool, refused⟩ := ih fuel { mem with
            mbufs := mem.mbufs + 1
            stray := mem.stray || !decide (n.base ≤ n.data ∧ n.data + min len (p.len - 0) ≤ mlen) }
          insidePre (fun q member => ⟨Nat.lt_succ_of_lt (oldPre q member).1,
            Nat.lt_succ_of_lt (oldPre q member).2⟩) checks
          (forall_mem_append.mpr ⟨empty, forall_mem_singleton.mpr empty'⟩)
          (marked.head (zeroize'.trans fresh.zeroize)) more'
          (by unfold lenLeft; split_ifs <;> omega) (by unfold lenLeft; split_ifs <;> omega)
        refine ⟨front ++ pool, ?_⟩
        rw [given, copyNext, into, bind_eq_bind, bind_some]
        simp only [zero_add, len', kassert_of_holds le_rfl, bind_eq_bind, bind_some, if_true]
        exact refused

theorem clean_of_copies (wf : chain.Wf mem) (old : ∀ m ∈ chain, m.Old mem)
    (count : len = mCopyall ∨ off + len ≤ chain.total) (limit : len ≤ mCopyall)
    (checks : mem.diagnostic = true)
    (copies : ∀ pool, Copies chain off len deep { mem with pool := pool }) :
    CopyClean chain off len deep := by
  rintro rfl rfl m0 isHead isHdr marked found get pre m rest isFound isExt
  by_contra misses
  obtain ⟨before, m', after, off', get', isChain, isOff, -⟩ :=
    mGetptr_of_le wf.nonempty (Nat.zero_le chain.total)
  obtain rfl : (m' :: after, off') = found := Option.some.inj (get'.symm.trans get)
  obtain rfl : off' = 0 := by omega
  change m' :: after = pre ++ m :: rest at isFound
  rw [isFound] at isChain
  have total : chain.total = before.total + Chain.total (pre ++ m :: rest) := by
    rw [isChain, Chain.total_append]
  have sub : ∀ p ∈ pre ++ [m], p ∈ chain := by
    intro p member
    rw [isChain]
    simp only [mem_append, mem_cons, not_mem_nil, or_false] at member ⊢
    exact .inr (member.imp_right .inl)
  have more : if len = mCopyall then rest ≠ [] ∨ mCopyall < m.len
      else Chain.total (pre ++ [m]) < len := by
    split_ifs at misses ⊢
    · rw [not_and_or, not_le] at misses
      exact misses
    · omega
  obtain ⟨pool, refused⟩ := copyLoop_panics (chain.total + chain.length + 1) pre rest mem isExt
    (fun p member => wf.inside p (sub p (mem_append_left [m] member)))
    (fun p member => old p (sub p member)) checks (forall_mem_nil _)
    (show CopyMarked m0 [] true from ⟨rfl, isHdr, marked⟩) more (by omega) limit
  obtain ⟨copy, mem', copied, -⟩ := copies pool
  rw [mCopym0_of_head isHead isHdr get, isFound, refused] at copied
  cases copied

/-- Whatever the pools hand out, copies are right, if and only if there is room for the data behind
the packet header and no cluster that must not be cleared is shared too early. -/
theorem mCopym0_copies (wf : chain.Wf mem) (old : ∀ m ∈ chain, m.Old mem)
    (bounds : off ≤ chain.total)
    (count : len = mCopyall ∨ off + len ≤ chain.total) (limit : len ≤ mCopyall)
    (unwritten : mem.stray = false) :
    (∀ pool, Copies chain off len deep { mem with pool := pool }) ↔
      CopyRoom chain off len ∧ (mem.diagnostic = true → CopyClean chain off len deep) := by
  constructor
  · intro copies
    exact ⟨room_of_copies unwritten copies, fun checks =>
      clean_of_copies wf old count limit checks copies⟩
  · rintro ⟨room, clean⟩ pool
    have wf' : chain.Wf { mem with pool := pool } := ⟨wf.nonempty, wf.inside, wf.known, wf.header⟩
    exact copies_of_room wf' bounds count limit room clean

/-- One cluster, and pools with something to hand out. -/
def sampleMem : Mem where
  clusters := fun _ i => UInt8.ofNat i
  nextref := id
  prevref := id
  freed := []
  mbufs := 2
  cls := 1
  pool := List.replicate 6 (some ⟨77, fun _ => 255⟩)
  denied := 0
  stray := false
  diagnostic := true

/-- A packet of eight bytes, of which five are in the cluster. -/
def samplePacket : Chain :=
  [⟨0, some ⟨8⟩, false, none, 80, 3, fun i => UInt8.ofNat i⟩,
    ⟨1, none, false, some ⟨0, 2048, true⟩, 16, 5, fun _ => 0⟩]

theorem samplePacket_wf : samplePacket.Wf sampleMem where
  nonempty := cons_ne_nil _ _
  inside := by decide
  known := by
    refine forall_mem_cons.mpr ⟨nofun, forall_mem_singleton.mpr ?_⟩
    intro e is
    cases is
    exact Nat.zero_lt_one
  header := by
    intro m is hdr isHdr
    cases is
    cases isHdr
    rfl

theorem samplePacket_copied : Copies samplePacket 0 4 false sampleMem := by
  refine (mCopym0_copies samplePacket_wf ?_ (by decide) (by decide) (by decide) rfl).mpr
    ⟨?_, fun _ _ _ m0 isHead _ marked => ?_⟩ sampleMem.pool
  · refine forall_mem_cons.mpr ⟨?_, forall_mem_singleton.mpr ?_⟩
    · exact ⟨by decide, by decide⟩
    · exact ⟨by decide, by decide⟩
  · intro _ _ _ _ found isFound m isFirst _
    cases isFound
    cases isFirst
    decide
  · cases isHead
    cases marked

/-- A packet whose first mbuf is empty. -/
def emptyFirst : Chain :=
  [⟨0, some ⟨200⟩, false, none, mPktdat, 0, fun _ => 0⟩, ⟨1, none, false, none, 0, 200, fun _ => 0⟩]

/-- The packet header of the copy is in front of the data of the second mbuf, for which there is
then no room. -/
theorem emptyFirst_overflows :
    emptyFirst.Wf sampleMem ∧ ∃ copy mem', mCopym0 emptyFirst 0 mCopyall false sampleMem =
      some (copy, mem') ∧ copy ≠ [] ∧ (∃ m ∈ copy, ¬m.Inside) ∧ mem'.stray = true := by
  refine ⟨⟨cons_ne_nil _ _, by decide, ?_, ?_⟩, ?_⟩
  · exact forall_mem_cons.mpr ⟨nofun, forall_mem_singleton.mpr nofun⟩
  · intro m is hdr isHdr
    cases is
    cases isHdr
    rfl
  · have passed : (mCopym0 emptyFirst 0 mCopyall false sampleMem).any (fun result =>
        !result.1.isEmpty && result.1.any (fun m => !decide m.Inside) &&
          result.2.stray) = true := by
      decide +kernel
    obtain ⟨⟨copy, mem'⟩, copied, test⟩ := (any_eq_true _ _).mp passed
    simp only [Bool.and_eq_true, Bool.not_eq_true', List.any_eq_true,
      decide_eq_false_iff_not] at test
    refine ⟨copy, mem', copied, ?_, test.1.2, test.2⟩
    intro isNil
    rw [isNil] at test
    cases test.1.1

end Bitrig.UipcMbuf
