import Bitrig.Lib.Transition
import Bitrig.Lib.Window

/-!
# Memory buffers

An mbuf holds its data in its own data area, which is shorter when there is a packet header in
front of it, or in external storage, a cluster.  Mbufs that refer to the same cluster are linked
in a ring.  What the pools hand out is not cleared, and they may have nothing to hand out.
-/

namespace Bitrig.UipcMbuf

open Bitrig.Transition Bitrig.Window Function Option

abbrev Byte := UInt8
abbrev MbufId := Nat
abbrev ClusterId := Nat

/-! ### Sizes -/

def msize : Nat := 256

/-- The data area of an mbuf; the mbuf header takes 32 bytes. -/
def mlen : Nat := msize - 32

/-- The data area behind a packet header of 72 bytes. -/
def mhlen : Nat := mlen - 72

def mclbytes : Nat := 2 ^ 11

def maxmclbytes : Nat := 64 * 1024

/-- The length that stands for everything up to the end. -/
def mCopyall : Nat := 1000000000

/-- The sizes of the cluster pools. -/
def mclsizes : List Nat :=
  [mclbytes, 4 * 1024, 8 * 1024, 9 * 1024, 12 * 1024, 16 * 1024, maxmclbytes]

/-- Where the data area of an mbuf with a packet header starts. -/
def mPktdat : Nat := mlen - mhlen

/-! ### Mbufs -/

structure Pkthdr where
  len : Int
  deriving DecidableEq

/-- External storage; `wr` is `M_EXTWR`. -/
structure Ext where
  buf : ClusterId
  size : Nat
  wr : Bool
  deriving DecidableEq

/-- An mbuf.  `pkthdr` and `ext` are there when `M_PKTHDR` and `M_EXT` are set, `data` is the
offset of `m_data` in the cluster or else in `m_dat`. -/
structure Mbuf where
  id : MbufId
  pkthdr : Option Pkthdr
  zeroize : Bool
  ext : Option Ext
  data : Nat
  len : Nat
  dat : Nat → Byte

/-- The mbufs linked by `m_next`; `NULL` is the empty chain. -/
abbrev Chain := List Mbuf

/-- What stands in memory that a pool hands out. -/
structure Junk where
  len : Nat
  fill : Nat → Byte

/-- The clusters, the rings of the mbufs that refer to them, the clusters that have been freed, the
answers of the pools and how often they had nothing, and whether something was written outside of a
data area.  `diagnostic` is whether the kernel has been made with `DIAGNOSTIC`. -/
structure Mem where
  clusters : ClusterId → Nat → Byte
  nextref : MbufId → MbufId
  prevref : MbufId → MbufId
  freed : List ClusterId
  mbufs : MbufId
  cls : ClusterId
  pool : List (Option Junk)
  denied : Nat
  stray : Bool
  diagnostic : Bool

namespace Mbuf

/-- The data area. -/
def area (m : Mbuf) (mem : Mem) : Nat → Byte :=
  match m.ext with
  | some e => mem.clusters e.buf
  | none => m.dat

/-- Where the data area starts. -/
def base (m : Mbuf) : Nat :=
  match m.ext with
  | some _ => 0
  | none => if m.pkthdr.isSome then mPktdat else 0

/-- Where it ends. -/
def limit (m : Mbuf) : Nat :=
  match m.ext with
  | some e => e.size
  | none => mlen

/-- The data of an mbuf. -/
def bytes (m : Mbuf) (mem : Mem) : List Byte :=
  window (m.area mem) m.data m.len

/-- The data lie inside the data area. -/
def Inside (m : Mbuf) : Prop :=
  m.base ≤ m.data ∧ m.data + m.len ≤ m.limit

instance (m : Mbuf) : Decidable m.Inside :=
  inferInstanceAs (Decidable (_ ∧ _))

/-- Copy bytes to an offset of the data area. -/
def put (m : Mbuf) (off : Nat) (src : List Byte) (mem : Mem) : Mbuf × Mem :=
  let mem := { mem with
    stray := mem.stray || !decide (m.base ≤ off ∧ off + src.length ≤ m.limit) }
  match m.ext with
  | some e =>
    (m, { mem with
      clusters := update mem.clusters e.buf (copyIn (mem.clusters e.buf) off src) })
  | none => ({ m with dat := copyIn m.dat off src }, mem)

end Mbuf

/-- The bytes that a chain denotes. -/
def Chain.bytes (chain : Chain) (mem : Mem) : List Byte :=
  chain.flatMap (·.bytes mem)

/-- The length of a chain. -/
def Chain.total (chain : Chain) : Nat :=
  (chain.map (·.len)).sum

/-! ### Allocation -/

/-- The next answer of a pool. -/
def poolGet (mem : Mem) : Option Junk × Mem :=
  match mem.pool with
  | [] => (none, { mem with denied := mem.denied + 1 })
  | none :: pool => (none, { mem with pool := pool, denied := mem.denied + 1 })
  | some junk :: pool => (some junk, { mem with pool := pool })

/-- A new mbuf.  `m_len` is not set. -/
def mGet (mem : Mem) : Option Mbuf × Mem :=
  match poolGet mem with
  | (none, mem) => (none, mem)
  | (some junk, mem) =>
    (some ⟨mem.mbufs, none, false, none, 0, junk.len, junk.fill⟩,
      { mem with mbufs := mem.mbufs + 1 })

def mInithdr (m : Mbuf) : Mbuf :=
  { m with pkthdr := some ⟨0⟩, zeroize := false, ext := none, data := mPktdat }

/-- A new mbuf with a packet header.  `m_len` is not set. -/
def mGethdr (mem : Mem) : Option Mbuf × Mem :=
  match mGet mem with
  | (none, mem) => (none, mem)
  | (some m, mem) => (some (mInithdr m), mem)

/-- New external storage of an mbuf. -/
def mextadd (m : Mbuf) (size : Nat) (wr : Bool) (fill : Nat → Byte) (mem : Mem) : Mbuf × Mem :=
  ({ m with ext := some ⟨mem.cls, size, wr⟩, data := 0 },
    { mem with
      clusters := update mem.clusters mem.cls fill
      cls := mem.cls + 1
      nextref := update mem.nextref m.id m.id
      prevref := update mem.prevref m.id m.id })

/-- The size of the pool for a packet. -/
def mClpool (pktlen : Nat) : Option Nat :=
  mclsizes.find? (pktlen ≤ ·)

/-- A cluster for an mbuf; without memory the mbuf stays as it is. -/
def mClget (m : Mbuf) (pktlen : Nat) (mem : Mem) : Option (Mbuf × Mem) := do
  let size ← mClpool pktlen
  match poolGet mem with
  | (none, mem) => some (m, mem)
  | (some junk, mem) => some (mextadd m size true junk.fill mem)

/-! ### References to a cluster -/

def mclisreferenced (m : Mbuf) (mem : Mem) : Bool :=
  mem.nextref m.id != m.id

def mReadonly (m : Mbuf) (mem : Mem) : Bool :=
  match m.ext with
  | some e => !e.wr || mclisreferenced m mem
  | none => false

/-- `n` refers to the cluster of `o` too. -/
def mExtref (o n : Mbuf) (mem : Mem) : Mbuf × Mem :=
  ({ n with ext := o.ext },
    { mem with
      nextref := update (update mem.nextref n.id (mem.nextref o.id)) o.id n.id
      prevref := update (update mem.prevref n.id o.id) (mem.nextref o.id) n.id })

/-- Take an mbuf out of its ring; `false` when it is alone there. -/
def mExtunref (m : Mbuf) (mem : Mem) : Bool × Mem :=
  if mclisreferenced m mem then
    (true, { mem with
      prevref := update mem.prevref (mem.nextref m.id) (mem.prevref m.id)
      nextref := update mem.nextref (mem.prevref m.id) (mem.nextref m.id) })
  else (false, mem)

/-- An mbuf gives up its external storage. -/
def mExtfree (m : Mbuf) (mem : Mem) : Mbuf × Mem :=
  match m.ext with
  | none => (m, mem)
  | some e =>
    match mExtunref m mem with
    | (true, mem) => ({ m with ext := none }, mem)
    | (false, mem) => ({ m with ext := none }, { mem with freed := e.buf :: mem.freed })

/-! ### Freeing -/

/-- The data area is cleared, also when others refer to it.  Under `DIAGNOSTIC` that is a panic. -/
def mZero (m : Mbuf) (mem : Mem) : Option Mem := do
  kassert (mem.diagnostic = true → mReadonly m mem = false)
  return (m.put m.base (List.replicate (m.limit - m.base) 0) mem).2

/-- `M_ZEROIZE`, when the mbuf before was freed with it. -/
def mark (zeroize : Bool) (m : Mbuf) : Mbuf :=
  { m with zeroize := m.zeroize || zeroize }

/-- Free one mbuf.  When it has to be cleared, so has the next one. -/
def mFree (m : Mbuf) (mem : Mem) : Option Mem :=
  if m.zeroize then (mZero m mem).map fun mem => (mExtfree m mem).2
  else some (mExtfree m mem).2

/-- Free a chain whose first mbuf may have been marked. -/
def freeLoop : Bool → Chain → Mem → Option Mem
  | _, [], mem => some mem
  | zeroize, m :: rest, mem => do
      let m := mark zeroize m
      let mem ← mFree m mem
      freeLoop m.zeroize rest mem

def mFreem (chain : Chain) (mem : Mem) : Option Mem :=
  freeLoop false chain mem

/-! ### Room -/

def mTrailingspace (m : Mbuf) (mem : Mem) : Nat :=
  if mReadonly m mem then 0 else m.limit - (m.data + m.len)

/-! ### Packet headers -/

/-- Copy a packet header to an empty mbuf; `true` when there is no memory for its tags. -/
def mDupPkthdr (target source : Mbuf) (mem : Mem) : Option (Mbuf × Bool × Mem) := do
  kassert (source.pkthdr.isSome = true)
  let target := { target with pkthdr := source.pkthdr, zeroize := source.zeroize }
  match poolGet mem with
  | (none, mem) => some (target, true, mem)
  | (some _, mem) =>
    some ({ target with data := if target.ext.isSome then target.data else mPktdat }, false, mem)

/-- Place an object at the end of an mbuf, aligned. -/
def mAlign (m : Mbuf) (len : Nat) : Mbuf :=
  { m with data := m.data + (mlen - len) / 8 * 8 }

/-- Place an object at the end of an mbuf with a packet header. -/
def mhAlign (m : Mbuf) (len : Nat) : Mbuf :=
  { m with data := m.data + (mhlen - len) / 8 * 8 }

/-! ### What the functions can do -/

section Cases

variable {mem : Mem} {m n : Mbuf} {pktlen size : Nat}

theorem poolGet_cases (mem : Mem) :
    (∃ pool, poolGet mem = (none, { mem with pool := pool, denied := mem.denied + 1 })) ∨
      ∃ junk pool, poolGet mem = (some junk, { mem with pool := pool }) := by
  rcases mem with ⟨clusters, nextref, prevref, freed, mbufs, cls, pool, denied, stray, diagnostic⟩
  rcases pool with _ | ⟨answer, pool⟩
  · exact .inl ⟨[], rfl⟩
  · cases answer with
    | none => exact .inl ⟨pool, rfl⟩
    | some junk => exact .inr ⟨junk, pool, rfl⟩

theorem mGet_cases (mem : Mem) :
    (∃ pool, mGet mem = (none, { mem with pool := pool, denied := mem.denied + 1 })) ∨
      ∃ (junk : Junk) (pool : List (Option Junk)), mGet mem =
        (some ⟨mem.mbufs, none, false, none, 0, junk.len, junk.fill⟩,
          { mem with pool := pool, mbufs := mem.mbufs + 1 }) := by
  unfold mGet
  rcases poolGet_cases mem with ⟨pool, get⟩ | ⟨junk, pool, get⟩
  · rw [get]
    exact .inl ⟨pool, rfl⟩
  · rw [get]
    exact .inr ⟨junk, pool, rfl⟩

theorem mGethdr_cases (mem : Mem) :
    (∃ pool, mGethdr mem = (none, { mem with pool := pool, denied := mem.denied + 1 })) ∨
      ∃ (junk : Junk) (pool : List (Option Junk)), mGethdr mem =
        (some ⟨mem.mbufs, some ⟨0⟩, false, none, mPktdat, junk.len, junk.fill⟩,
          { mem with pool := pool, mbufs := mem.mbufs + 1 }) := by
  unfold mGethdr
  rcases mGet_cases mem with ⟨pool, get⟩ | ⟨junk, pool, get⟩
  · rw [get]
    exact .inl ⟨pool, rfl⟩
  · rw [get]
    exact .inr ⟨junk, pool, rfl⟩

theorem mClget_cases (pool : mClpool pktlen = some size) (m : Mbuf) (mem : Mem) :
    (∃ pool, mClget m pktlen mem = some (m, { mem with pool := pool, denied := mem.denied + 1 })) ∨
      ∃ (junk : Junk) (pool : List (Option Junk)), mClget m pktlen mem =
        some (mextadd m size true junk.fill { mem with pool := pool }) := by
  unfold mClget
  rw [pool]
  rcases poolGet_cases mem with ⟨pool, get⟩ | ⟨junk, pool, get⟩
  · refine .inl ⟨pool, ?_⟩
    rw [bind_eq_bind, bind_some, get]
  · refine .inr ⟨junk, pool, ?_⟩
    rw [bind_eq_bind, bind_some, get]

theorem mDupPkthdr_cases (hdr : m.pkthdr.isSome = true) (n : Mbuf) (mem : Mem) :
    (∃ pool, mDupPkthdr n m mem = some ({ n with pkthdr := m.pkthdr, zeroize := m.zeroize }, true,
        { mem with pool := pool, denied := mem.denied + 1 })) ∨
      ∃ pool, mDupPkthdr n m mem = some ({ n with
          pkthdr := m.pkthdr
          zeroize := m.zeroize
          data := if n.ext.isSome then n.data else mPktdat }, false,
        { mem with pool := pool }) := by
  unfold mDupPkthdr
  rw [kassert_of_holds hdr, bind_eq_bind]
  rcases poolGet_cases mem with ⟨pool, get⟩ | ⟨junk, pool, get⟩
  · rw [get]
    exact .inl ⟨pool, rfl⟩
  · rw [get]
    exact .inr ⟨pool, rfl⟩

end Cases

end Bitrig.UipcMbuf
