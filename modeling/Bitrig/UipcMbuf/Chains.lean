import Bitrig.UipcMbuf.Mbufs

/-!
# Operations on chains

A function that returns `NULL` gives the empty chain, and one that panics is undefined.  The chain
that a function is given is a list of mbufs that it owns; what it leaves of it is part of the
result.
-/

namespace Bitrig.UipcMbuf

open Bitrig.Transition Bitrig.Window

/-! ### Copying -/

/-- The mbuf at a position, with the rest of the chain, and the offset in it.  The position behind
the last byte is in the last mbuf. -/
def mGetptr : Chain → Nat → Option (Chain × Nat)
  | [], _ => none
  | m :: rest, loc =>
    if loc < m.len then some (m :: rest, loc)
    else if rest.isEmpty then
      if loc - m.len = 0 then some ([m], m.len) else none
    else mGetptr rest (loc - m.len)

/-- Fill the new mbuf `n` from an offset of `m`. -/
def copyInto (deep : Bool) (m : Mbuf) (off len : Nat) (n : Mbuf) (mem : Mem) :
    Option (Mbuf × Mem) :=
  let n := { n with len := min len (m.len - off) }
  if m.ext.isSome then
    if deep then do
      let (n, mem) ← mClget n mclbytes mem
      let n := { n with len := 0 }
      let n := { n with len := min (min (mTrailingspace n mem) len) (m.len - off) }
      return n.put n.data (window (m.area mem) (m.data + off) n.len) mem
    else some (mExtref m { n with data := m.data + off } mem)
  else some (n.put n.data (window (m.area mem) (m.data + off) n.len) mem)

/-- The first mbuf of a copy gets the packet header; `true` when there is no memory. -/
def copyPkthdr (m0 : Mbuf) (copyhdr : Bool) (len : Nat) (n : Mbuf) (mem : Mem) :
    Option (Mbuf × Bool × Mem) :=
  if copyhdr then
    (mDupPkthdr n m0 mem).map fun (n, error, mem) =>
      (if len ≠ mCopyall then { n with pkthdr := some ⟨len⟩ } else n, error, mem)
  else some (n, false, mem)

/-- The loop of `m_copym0`, with the mbufs that have been made. -/
def copyLoop (m0 : Mbuf) (deep : Bool) :
    Nat → Chain → Nat → Nat → Bool → Chain → Mem → Option (Chain × Mem)
  | 0, _, _, _, _, _, _ => none
  | fuel + 1, chain, off, len, copyhdr, top, mem =>
    if len = 0 then some (top, mem)
    else match chain with
      | [] => do
          kassert (len = mCopyall)
          return (top, mem)
      | m :: rest =>
        match mGet mem with
        | (none, mem) => do
            let mem ← mFreem top mem
            return ([], mem)
        | (some n, mem) => do
            let (n, error, mem) ← copyPkthdr m0 copyhdr len n mem
            if error then
              let mem ← mFreem (top ++ [n]) mem
              return ([], mem)
            else
              let (n, mem) ← copyInto deep m off len n mem
              let len := if len ≠ mCopyall then len - n.len else len
              kassert (off + n.len ≤ m.len)
              if off + n.len = m.len then
                copyLoop m0 deep fuel rest 0 len false (top ++ [n]) mem
              else copyLoop m0 deep fuel (m :: rest) (off + n.len) len false (top ++ [n]) mem

/-- Copy `len` bytes of a chain from `off` on.  `m_copym` shares the clusters, `m_copym2` makes a
deep copy. -/
def mCopym0 (chain : Chain) (off len : Nat) (deep : Bool) (mem : Mem) : Option (Chain × Mem) := do
  let m0 ← chain.head?
  let (m, off') ← mGetptr chain off
  copyLoop m0 deep (chain.total + chain.length + 1) m off' len
    (decide (off = 0) && m0.pkthdr.isSome) [] mem

/-! ### Splitting -/

/-- The length in the packet header is set, if the first mbuf has one. -/
def setPkthdrLen (len : Int) : Chain → Chain
  | [] => []
  | m :: rest => { m with pkthdr := m.pkthdr.map fun _ => ⟨len⟩ } :: rest

/-- The first mbuf with at least the remaining number of bytes: what is before, the mbuf, what is
behind, and the number. -/
def findPos : Chain → Nat → Option (Chain × Mbuf × Chain × Nat)
  | [], _ => none
  | m :: rest, len =>
    if m.len < len then
      (findPos rest (len - m.len)).map fun (before, found) => (m :: before, found)
    else some ([], m, rest, len)

/-- The end of `m_split`: the new mbuf `n` takes what `m` has behind `len`. -/
def splitInto (m : Mbuf) (len : Nat) (n : Mbuf) (mem : Mem) : Mbuf × Mbuf × Mem :=
  let remain := m.len - len
  let (n, mem) :=
    if m.ext.isSome then
      let (n, mem) := mExtref m n mem
      ({ n with data := m.data + len }, mem)
    else n.put n.data (window (m.area mem) (m.data + len) remain) mem
  ({ m with len := len }, { n with len := remain }, mem)

/-- The head and the tail of a chain.  `depth` bounds the recursion, which is only used for an mbuf
behind the first one. -/
def splitAux : Nat → Chain → Nat → Mem → Option (Chain × Chain × Mem)
  | 0, _, _, _ => none
  | depth + 1, chain, len0, mem =>
    match findPos chain len0 with
    | none => some (chain, [], mem)
    | some (before, m, after, len) => do
        let remain := m.len - len
        let m0 ← chain.head?
        if m0.pkthdr.isSome then
          match mGethdr mem with
          | (none, mem) => some (chain, [], mem)
          | (some n, mem) =>
            let (n, error, mem) ← mDupPkthdr n m0 mem
            if error then
              let mem ← mFreem [n] mem
              return (chain, [], mem)
            else
              let n := { n with pkthdr := n.pkthdr.map fun hdr => ⟨hdr.len - len0⟩ }
              if m.ext.isSome = false ∧ mhlen < remain then
                -- `m_len` of the new first mbuf is not set here
                let n := mhAlign n 0
                let (left, tail, mem) ← splitAux depth (m :: after) len mem
                if tail.isEmpty then
                  let mem ← mFree n mem
                  return (chain, [], mem)
                else return (setPkthdrLen len0 (before ++ left), n :: tail, mem)
              else
                let n := if m.ext.isSome then n else mhAlign n remain
                let (m, n, mem) := splitInto m len n mem
                return (setPkthdrLen len0 (before ++ [m]), n :: after, mem)
        else if remain = 0 then return (before ++ [m], after, mem)
        else
          match mGet mem with
          | (none, mem) => some (chain, [], mem)
          | (some n, mem) =>
            let (m, n, mem) := splitInto m len (mAlign n remain) mem
            return (before ++ [m], n :: after, mem)

/-- Split a chain behind its first `len0` bytes. -/
def mSplit (chain : Chain) (len0 : Nat) (mem : Mem) : Option (Chain × Chain × Mem) :=
  splitAux (chain.length + 1) chain len0 mem

end Bitrig.UipcMbuf
