import Bitrig.Lib.Window

/-!
# Visual encoding of bytes

`vis` writes a byte with printable characters, and `unvis` is a machine that is
fed with such characters.  The form of a NUL byte depends on the byte behind it,
and the machine finds the end of that form only at the character behind it,
which is then pushed back.
-/

namespace Bitrig.Vis

open Bitrig.Window Function List

/-! ## Encoding -/

/-- The flags of `vis`. -/
structure VisFlags where
  visOctal : Bool
  visCstyle : Bool
  visSp : Bool
  visTab : Bool
  visNl : Bool
  visSafe : Bool
  visAll : Bool
  visNoslash : Bool
  visGlob : Bool

/-- `isgraph` of the C locale. -/
def isgraph (c : UInt8) : Bool :=
  0x21 ≤ c && c ≤ 0x7e

/-- `iscntrl` of the C locale. -/
def iscntrl (c : UInt8) : Bool :=
  c < 0x20 || c == 0x7f

/-- The macro `isoctal`. -/
def isoctal (c : UInt8) : Bool :=
  0x30 ≤ c && c ≤ 0x37

/-- The characters `*`, `?`, `[` and `#`. -/
def isglob (c : UInt8) : Bool :=
  c == 0x2a || c == 0x3f || c == 0x5b || c == 0x23

/-- The macro `isvisible`. -/
def isvisible (c : UInt8) (flag : VisFlags) : Bool :=
  (c == 0x5c || !flag.visAll) &&
    (c < 0x80 && (!isglob c || !flag.visGlob) && isgraph c ||
      !flag.visSp && c == 0x20 || !flag.visTab && c == 0x09 || !flag.visNl && c == 0x0a ||
      flag.visSafe && (c == 0x08 || c == 0x07 || c == 0x0d || isgraph c))

/-- The switch of `vis` for `VIS_CSTYLE`: the characters behind the backslash. -/
def cstyle (c nextc : UInt8) : Option (List UInt8) :=
  if c = 0x0a then some [0x6e]
  else if c = 0x0d then some [0x72]
  else if c = 0x08 then some [0x62]
  else if c = 0x07 then some [0x61]
  else if c = 0x0b then some [0x76]
  else if c = 0x09 then some [0x74]
  else if c = 0x0c then some [0x66]
  else if c = 0x20 then some [0x73]
  else if c = 0 then some (if isoctal nextc then [0x30, 0x30, 0x30] else [0x30])
  else none

/-- The three octal digits of a byte. -/
def octal (c : UInt8) : List UInt8 :=
  [(c >>> 6 &&& 7) + 0x30, (c >>> 3 &&& 7) + 0x30, (c &&& 7) + 0x30]

/-- A control character with `^`, any other one with `-`. -/
def caret (c : UInt8) : List UInt8 :=
  if iscntrl c then [0x5e, if c = 0x7f then 0x3f else c + 0x40] else [0x2d, c]

/-- The last form of `vis`, with `M` for the highest bit. -/
def metaForm (c : UInt8) : List UInt8 :=
  if c &&& 0x80 ≠ 0 then 0x4d :: caret (c &&& 0x7f) else caret c

/-- The forms of a character that is not visible. -/
def escape (c : UInt8) (flag : VisFlags) : List UInt8 :=
  if c &&& 0x7f = 0x20 ∨ flag.visOctal ∨ flag.visGlob ∧ isglob c then 0x5c :: octal c
  else if flag.visNoslash then metaForm c else 0x5c :: metaForm c

/-- `vis`: the characters that are written. -/
def vis (c : UInt8) (flag : VisFlags) (nextc : UInt8) : List UInt8 :=
  if isvisible c flag then if c = 0x5c ∧ !flag.visNoslash then [c, 0x5c] else [c]
  else
    match if flag.visCstyle then cstyle c nextc else none with
    | some chars => 0x5c :: chars
    | none => escape c flag

/-- `strvisx`. -/
def strvisx (flag : VisFlags) : List UInt8 → List UInt8
  | [] => []
  | [c] => vis c flag 0
  | c :: nextc :: src => vis c flag nextc ++ strvisx flag (nextc :: src)

/-! ## Decoding -/

/-- The states of `unvis`. -/
inductive UnvisState
  | sGround | sStart | sMeta | sMeta1 | sCtrl | sOctal2 | sOctal3
  deriving DecidableEq

/-- The results of `unvis`, with `more` for zero. -/
inductive UnvisResult
  | more | valid | validpush | nochar | synbad
  deriving DecidableEq

/-- The characters that stand for one byte behind a backslash. -/
def simpleEscape (c : UInt8) : Option UInt8 :=
  if c = 0x5c then some 0x5c
  else if c = 0x6e then some 0x0a
  else if c = 0x72 then some 0x0d
  else if c = 0x62 then some 0x08
  else if c = 0x61 then some 0x07
  else if c = 0x76 then some 0x0b
  else if c = 0x74 then some 0x09
  else if c = 0x66 then some 0x0c
  else if c = 0x73 then some 0x20
  else if c = 0x45 then some 0x1b
  else none

/-- `unvis` without `UNVIS_END`, for the byte at `cp`. -/
def unvis (cp c : UInt8) : UnvisState → UnvisResult × UInt8 × UnvisState
  | .sGround => if c = 0x5c then (.more, 0, .sStart) else (.valid, c, .sGround)
  | .sStart =>
    match simpleEscape c with
    | some byte => (.valid, byte, .sGround)
    | none =>
      if c = 0x2d then (.more, 0, .sGround)
      else if isoctal c then (.more, c - 0x30, .sOctal2)
      else if c = 0x4d then (.more, 0x80, .sMeta)
      else if c = 0x5e then (.more, cp, .sCtrl)
      else if c = 0x0a ∨ c = 0x24 then (.nochar, cp, .sGround)
      else (.synbad, cp, .sGround)
  | .sMeta =>
    if c = 0x2d then (.more, cp, .sMeta1)
    else if c = 0x5e then (.more, cp, .sCtrl)
    else (.synbad, cp, .sGround)
  | .sMeta1 => (.valid, cp ||| c, .sGround)
  | .sCtrl => (.valid, cp ||| if c = 0x3f then 0x7f else c &&& 0x1f, .sGround)
  | .sOctal2 =>
    if isoctal c then (.more, (cp <<< 3) + (c - 0x30), .sOctal3) else (.validpush, cp, .sGround)
  | .sOctal3 =>
    if isoctal c then (.valid, (cp <<< 3) + (c - 0x30), .sGround) else (.validpush, cp, .sGround)

/-- `unvis` with `UNVIS_END`. -/
def unvisEnd : UnvisState → UnvisResult
  | .sOctal2 | .sOctal3 => .valid
  | .sGround => .nochar
  | _ => .synbad

/-- The variables of `strunvis`. -/
structure Decoder where
  dst : Nat → UInt8
  pos : Nat
  state : UnvisState

/-- The switch of `strunvis`.  A character that is pushed back is passed in the
ground state, which takes it, so `again` is reached once at most. -/
def feed : Nat → Decoder → UInt8 → Option Decoder
  | 0, _, _ => none
  | again + 1, d, c =>
    let (result, byte, state) := unvis (d.dst d.pos) c d.state
    let dst := update d.dst d.pos byte
    match result with
    | .valid => some ⟨dst, d.pos + 1, state⟩
    | .validpush => feed again ⟨dst, d.pos + 1, state⟩ c
    | .more | .nochar => some ⟨dst, d.pos, state⟩
    | .synbad => none

/-- The end of `strunvis`: the length and the memory. -/
def strunvisEnd (d : Decoder) : Nat × (Nat → UInt8) :=
  let pos := if unvisEnd d.state = .valid then d.pos + 1 else d.pos
  (pos, update d.dst pos 0)

/-- The loop of `strunvis`, up to the end of the string or its first NUL byte.
An error gives no result. -/
def strunvisLoop (d : Decoder) : List UInt8 → Option (Nat × (Nat → UInt8))
  | [] => some (strunvisEnd d)
  | c :: src =>
    if c = 0 then some (strunvisEnd d)
    else (feed 2 d c).bind fun d => strunvisLoop d src

/-- `strunvis`. -/
def strunvis (dst : Nat → UInt8) (src : List UInt8) : Option (Nat × (Nat → UInt8)) :=
  strunvisLoop ⟨dst, 0, .sGround⟩ src

/-! ## Decoding what was encoded -/

theorem forall_byte {P : UInt8 → Prop} (all : ∀ n < 256, P (UInt8.ofNat n)) (c : UInt8) : P c := by
  have byte := all c.toNat c.toNat_lt
  rwa [UInt8.ofNat_toNat] at byte

/-- The byte that some characters stand for, of which only the last one completes
it. -/
def decodeOne : UInt8 → UnvisState → List UInt8 → Option UInt8
  | _, _, [] => none
  | cp, state, c :: chars =>
    if c = 0 then none
    else
      match unvis cp c state with
      | (.more, cp, state) => decodeOne cp state chars
      | (.valid, byte, .sGround) => if chars = [] then some byte else none
      | _ => none

variable {dst : Nat → UInt8} {pos : Nat} {state : UnvisState} {byte : UInt8} {src : List UInt8}

/-- Characters that stand for a byte are decoded to it. -/
theorem strunvisLoop_decodeOne {chars rest : List UInt8}
    (decodes : decodeOne (dst pos) state chars = some byte) :
    strunvisLoop ⟨dst, pos, state⟩ (chars ++ rest) =
      strunvisLoop ⟨update dst pos byte, pos + 1, .sGround⟩ rest := by
  induction chars generalizing dst state with
  | nil => cases decodes
  | cons c chars ih =>
    rw [decodeOne] at decodes
    split at decodes
    · cases decodes
    next nonzero =>
      rw [cons_append, strunvisLoop, if_neg nonzero, feed]
      split at decodes
      next result =>
        rw [result]
        refine (ih (by rwa [update_self])).trans ?_
        rw [update_idem]
      next result =>
        rw [result]
        obtain ⟨rfl, same⟩ := Option.ite_none_right_eq_some.mp decodes
        cases same
        rfl
      next => cases decodes

theorem decodeOne_nonzero {cp : UInt8} {chars : List UInt8}
    (decodes : decodeOne cp state chars = some byte) : 0 ∉ chars := by
  induction chars generalizing cp state with
  | nil => exact not_mem_nil
  | cons c chars ih =>
    rw [decodeOne] at decodes
    split at decodes
    · cases decodes
    next nonzero =>
      have first : 0 ≠ c := fun zero => nonzero zero.symm
      split at decodes
      · exact not_mem_cons_of_ne_of_not_mem first (ih decodes)
      · obtain ⟨rfl, -⟩ := Option.ite_none_right_eq_some.mp decodes
        exact not_mem_cons_of_ne_of_not_mem first not_mem_nil
      · cases decodes

/-- The ground state does not read the byte at `cp`. -/
theorem decodeOne_ground (cp : UInt8) (chars : List UInt8) :
    decodeOne cp .sGround chars = decodeOne 0 .sGround chars := by
  cases chars <;> rfl

section Encoded

variable {flag : VisFlags} {c nextc : UInt8} {chars : List UInt8}

theorem octal_decodes (c : UInt8) : decodeOne 0 .sGround (0x5c :: octal c) = some c := by
  apply forall_byte (P := fun c => decodeOne 0 .sGround (0x5c :: octal c) = some c)
  decide +kernel

theorem metaForm_decodes (other : c ≠ 0x5c) :
    decodeOne 0 .sGround (0x5c :: metaForm c) = some c := by
  revert c
  apply forall_byte (P := fun c => c ≠ 0x5c → decodeOne 0 .sGround (0x5c :: metaForm c) = some c)
  decide +kernel

/-- The short form of a NUL byte is complete only at the next character. -/
def ShortNul (c nextc : UInt8) (chars : List UInt8) : Prop :=
  c = 0 ∧ isoctal nextc = false ∧ chars = [0x5c, 0x30]

theorem cstyle_decodes (found : cstyle c nextc = some chars) :
    decodeOne 0 .sGround (0x5c :: chars) = some c ∨ ShortNul c nextc (0x5c :: chars) := by
  unfold cstyle at found
  split_ifs at found with isNl isCr isBs isBel isVt isTab isFf isSp isNul next
  all_goals cases found
  all_goals subst c
  case neg => exact .inr ⟨rfl, Bool.not_eq_true _ ▸ next, rfl⟩
  all_goals exact .inl (by decide)

/-- A backslash is always visible, and a NUL byte never. -/
theorem isvisible_backslash : isvisible 0x5c flag = true := by
  simp [isvisible, isgraph, isglob]

theorem isvisible_nul : isvisible 0 flag = false := by
  simp [isvisible, isgraph]

theorem vis_decodes (slash : flag.visNoslash = false) (c nextc : UInt8) :
    decodeOne 0 .sGround (vis c flag nextc) = some c ∨ ShortNul c nextc (vis c flag nextc) := by
  unfold vis
  split
  next visible =>
    by_cases backslash : c = 0x5c
    · subst c
      rw [slash]
      exact .inl (by decide)
    · have nonzero : c ≠ 0 := fun nul => by simp [nul, isvisible_nul] at visible
      exact .inl (by simp [decodeOne, unvis, nonzero, backslash])
  next hidden =>
    have backslash : c ≠ 0x5c := fun same => hidden (same ▸ isvisible_backslash)
    split
    next chars found =>
      obtain ⟨-, found⟩ := Option.ite_none_right_eq_some.mp found
      exact cstyle_decodes found
    next =>
      unfold escape
      rw [slash]
      split
      · exact .inl (octal_decodes c)
      · exact .inl (metaForm_decodes backslash)

/-- The first character is the byte itself or a backslash. -/
theorem vis_head (slash : flag.visNoslash = false) (c nextc : UInt8) :
    ∃ first chars, vis c flag nextc = first :: chars ∧ (first = c ∨ first = 0x5c) := by
  unfold vis
  split
  · split <;> exact ⟨_, _, rfl, .inl rfl⟩
  · split
    · exact ⟨_, _, rfl, .inr rfl⟩
    · unfold escape
      rw [slash]
      split <;> exact ⟨_, _, rfl, .inr rfl⟩

theorem vis_length (c : UInt8) (flag : VisFlags) (nextc : UInt8) :
    (vis c flag nextc).length ≤ 4 := by
  unfold vis
  split
  · split <;> simp
  · split
    next chars found =>
      obtain ⟨-, found⟩ := Option.ite_none_right_eq_some.mp found
      unfold cstyle at found
      split_ifs at found <;> cases found <;> simp
    next =>
      simp only [escape, metaForm, caret, octal]
      split_ifs <;> simp

end Encoded

/-- In the ground state no character is pushed back. -/
theorem feed_ground (again : Nat) :
    feed (again + 1) ⟨dst, pos, .sGround⟩ c = feed 1 ⟨dst, pos, .sGround⟩ c := by
  by_cases backslash : c = 0x5c <;> simp [feed, unvis, backslash]

/-- A short octal form ends at a character that is not an octal digit. -/
theorem strunvisLoop_octal2 (ends : ∀ c ∈ src.head?, isoctal c = false) :
    strunvisLoop ⟨dst, pos, .sOctal2⟩ src = strunvisLoop ⟨dst, pos + 1, .sGround⟩ src := by
  cases src with
  | nil => rfl
  | cons c src =>
    have pushed : feed 2 ⟨dst, pos, .sOctal2⟩ c = feed 1 ⟨dst, pos + 1, .sGround⟩ c := by
      have digit : unvis (dst pos) c .sOctal2 = (.validpush, dst pos, .sGround) := by
        simp [unvis, ends c rfl]
      rw [feed, digit]
      dsimp only
      rw [update_eq_self]
    rw [strunvisLoop, strunvisLoop, pushed, feed_ground 1]
    rfl

section Strings

variable {flag : VisFlags} (slash : flag.visNoslash = false)

theorem strvisx_cons (c : UInt8) (src : List UInt8) :
    strvisx flag (c :: src) = vis c flag (src.headD 0) ++ strvisx flag src := by
  cases src with
  | nil => exact (append_nil _).symm
  | cons nextc src => rfl

include slash

/-- The encoding of a string whose first byte is no octal digit does not start
with one. -/
theorem strvisx_head (other : isoctal (src.headD 0) = false) :
    ∀ c ∈ (strvisx flag src).head?, isoctal c = false := by
  cases src with
  | nil => exact nofun
  | cons nextc src =>
    obtain ⟨first, chars, form, same⟩ := vis_head slash nextc (src.headD 0)
    rw [strvisx_cons, form]
    rintro c ⟨⟩
    rcases same with rfl | rfl
    · exact other
    · rfl

/-- The form of one byte is decoded. -/
theorem strunvisLoop_vis (c : UInt8) (src : List UInt8) (dst : Nat → UInt8) (pos : Nat) :
    strunvisLoop ⟨dst, pos, .sGround⟩ (strvisx flag (c :: src)) =
      strunvisLoop ⟨update dst pos c, pos + 1, .sGround⟩ (strvisx flag src) := by
  rw [strvisx_cons]
  rcases vis_decodes slash c (src.headD 0) with decodes | ⟨rfl, other, form⟩
  · rw [← decodeOne_ground (dst pos)] at decodes
    exact strunvisLoop_decodeOne decodes
  · rw [form, ← strunvisLoop_octal2 (strvisx_head slash other)]
    simp [strunvisLoop, feed, unvis, simpleEscape, isoctal]

theorem strunvisLoop_strvisx (src : List UInt8) (dst : Nat → UInt8) (pos : Nat) :
    strunvisLoop ⟨dst, pos, .sGround⟩ (strvisx flag src) =
      some (pos + src.length, update (copyIn dst pos src) (pos + src.length) 0) := by
  induction src generalizing dst pos with
  | nil =>
    have same : copyIn dst pos [] = dst := funext fun i => copyIn_of_outside (by simp; omega)
    rw [same]
    rfl
  | cons c src ih =>
    rw [strunvisLoop_vis slash, ih, copyIn_update, Nat.add_right_comm]
    rfl

theorem nul_not_mem_strvisx (src : List UInt8) : 0 ∉ strvisx flag src := by
  induction src with
  | nil => exact not_mem_nil
  | cons c src ih =>
    rw [strvisx_cons, mem_append, not_or]
    refine ⟨?_, ih⟩
    rcases vis_decodes slash c (src.headD 0) with decodes | ⟨-, -, form⟩
    · exact decodeOne_nonzero decodes
    · rw [form]
      decide

omit slash in
theorem strvisx_length (src : List UInt8) : (strvisx flag src).length ≤ 4 * src.length := by
  induction src with
  | nil => exact Nat.le_refl _
  | cons c src ih =>
    have short := vis_length c flag (src.headD 0)
    rw [strvisx_cons, length_append, length_cons]
    omega

/-- A string is decoded from its encoding, whatever the flags, except
`VIS_NOSLASH`.  The encoding is a string of at most four times the length. -/
theorem strunvis_strvisx (src : List UInt8) (dst : Nat → UInt8) :
    0 ∉ strvisx flag src ∧ (strvisx flag src).length ≤ 4 * src.length ∧
      ∃ dst', strunvis dst (strvisx flag src) = some (src.length, dst') ∧
        window dst' 0 src.length = src ∧ dst' src.length = 0 := by
  refine ⟨nul_not_mem_strvisx slash src, strvisx_length src, _,
    (strunvisLoop_strvisx slash src dst 0).trans (by rw [Nat.zero_add]), ?_, ?_⟩
  · rw [window_update (by omega)]
    exact window_copyIn dst 0 src
  · exact update_self _ _ _

end Strings

/-- Two NUL bytes before an octal digit, in the style of C. -/
theorem nuls_decoded :
    strvisx ⟨false, true, false, false, false, false, false, false, false⟩ [0, 0, 0x31] =
        [0x5c, 0x30, 0x5c, 0x30, 0x30, 0x30, 0x31] ∧
      ∃ dst', strunvis (fun _ => 0xff) [0x5c, 0x30, 0x5c, 0x30, 0x30, 0x30, 0x31] =
          some (3, dst') ∧ window dst' 0 3 = [0, 0, 0x31] := by
  obtain ⟨-, -, dst', decoded, same, -⟩ :=
    @strunvis_strvisx ⟨false, true, false, false, false, false, false, false, false⟩ rfl
      [0, 0, 0x31] fun _ => 0xff
  exact ⟨by decide, dst', decoded, same⟩

theorem vis_graphic {flag : VisFlags} {c nextc : UInt8} (hidden : isvisible c flag = false) :
    (vis c flag nextc).all isgraph = true := by
  have digits := forall_byte (P := fun c => (octal c).all isgraph = true) (by decide +kernel) c
  have other := forall_byte (P := fun c => c &&& 0x7f ≠ 0x20 → (metaForm c).all isgraph = true)
    (by decide +kernel) c
  have style : ∀ chars, cstyle c nextc = some chars → chars.all isgraph = true := by
    grind [cstyle, isgraph]
  simp only [vis, hidden, escape]
  grind [isgraph]

/-- A byte that is written is graphic, or one that the flags leave visible; the form of a byte that
they do not leave visible is graphic throughout. -/
theorem strvisx_visible (flag : VisFlags) (src : List UInt8) :
    (strvisx flag src).all (fun b => isgraph b || isvisible b flag) = true ∧
      ∀ c nextc, isvisible c flag = false → (vis c flag nextc).all isgraph = true := by
  refine ⟨?_, fun c nextc => vis_graphic⟩
  induction src with
  | nil => rfl
  | cons c src ih =>
    rw [strvisx_cons, all_append, ih, Bool.and_true]
    cases visible : isvisible c flag with
    | true => grind [vis]
    | false =>
      have graphic := @vis_graphic _ _ (src.headD 0) visible
      grind

end Bitrig.Vis
