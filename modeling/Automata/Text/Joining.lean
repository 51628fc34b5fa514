import Automata.Text.Emoji
import Automata.Text.Width

/-!
# The width of text

Some neighbouring characters are drawn as one: letters join into ligatures, and emoji into
sequences.  So the width of a text is not the sum of the widths of its characters.  A text is
measured from its end to its front; what stands at the front says how much the next character
adds.

## What is here

* `Letter`, `Letter.join?` — letters that wait for a partner before them, and the ligatures.
* `Picture`, `Picture.join?` — emoji as far as they are read, and their sequences.
* `Front`, `Front.place` — what stands at the front of a text, and the columns that one more
  character adds there.
* `width` — the columns of a text.
-/

set_option autoImplicit false

namespace Automata

namespace Text

/-! ## What stands at the front -/

/-- Letters that can join a letter before them into a ligature. -/
inductive Letter
  /-- The Hebrew lamed, for alef and lamed with a joiner. -/
  | lamed
  /-- An Arabic alef, for lam and alef. -/
  | alef
  /-- A Khmer letter, which the sign before it puts below the letter before that. -/
  | khmer
  /-- The Buginese ya, for a conjunct of two. -/
  | ya
  /-- The Buginese ya with its vowel sign and a joiner between. -/
  | vowelledYa
  /-- A Tifinagh consonant. -/
  | tifinagh
  /-- A Tifinagh consonant with the sign that joins it to the consonant before. -/
  | boundTifinagh
  /-- A Lisu tone letter that can be the second of a pair. -/
  | tone
  /-- The Old Turkic letter i, for a ligature with a joiner. -/
  | turkicI
deriving DecidableEq, Repr

/-- An emoji as far as it is read, from its end. -/
inductive Picture
  /-- A picture that is complete. -/
  | complete
  /-- A modifier that may colour the picture before it. -/
  | modifier
  /-- One regional indicator. -/
  | indicator
  /-- More than one regional indicator. -/
  | indicators
  /-- A picture with a joiner before it. -/
  | joined
  /-- A joined picture with the frame of a key before the joiner. -/
  | keycap
  /-- Regional indicators before a joiner, so many. -/
  | joinedIndicators (count : Nat)
  /-- The end of a tagged flag and so many letters of its tag. -/
  | tagLetters (count : Nat)
  /-- A tagged flag with so many digits of its tag. -/
  | tagDigits (count : Nat)
deriving DecidableEq, Repr

/-- What can join the character before it. -/
inductive Glyph
  /-- Nothing joins. -/
  | plain
  /-- A letter; `bound` says whether a joiner stands before it. -/
  | letter (l : Letter) (bound : Bool)
  /-- An emoji. -/
  | picture (p : Picture)
deriving DecidableEq, Repr

/-- The front of a text, as far as a character before it cares. -/
structure Front where
  /-- What can join the character. -/
  glyph : Glyph := .plain
  /-- Whether the selector for the picture stands at the front. -/
  asPicture : Bool := false
  /-- Whether the selector for the letter form stands at the front. -/
  asText : Bool := false
deriving DecidableEq, Repr

/-! ## Letters -/

/-- The letters of the Arabic joining group Alef. -/
def isAlef (c : Char) : Bool :=
  within [(0x622, 0x623), (0x625, 0x625), (0x627, 0x627), (0x671, 0x673), (0x675, 0x675),
    (0x773, 0x774), (0x870, 0x882)] c

/-- The letters of the Arabic joining group Lam. -/
def isLam (c : Char) : Bool :=
  within [(0x644, 0x644), (0x6B5, 0x6B8), (0x76A, 0x76A), (0x8A6, 0x8A6), (0x8C7, 0x8C7)] c

/-- The Khmer letters that have a form below the line which adds no width. -/
def isKhmerLetter (c : Char) : Bool :=
  within [(0x1780, 0x1782), (0x1784, 0x1787), (0x1789, 0x178C), (0x178E, 0x1793),
    (0x1795, 0x1798), (0x179B, 0x179D), (0x17A0, 0x17A0), (0x17A2, 0x17A2), (0x17A7, 0x17A7),
    (0x17AB, 0x17AC), (0x17AF, 0x17AF)] c

/-- The Tifinagh consonants. -/
def isTifinagh (c : Char) : Bool := within [(0x2D31, 0x2D65), (0x2D6F, 0x2D6F)] c

/-- Marks without a look of their own, over which most ligatures reach. -/
def isSlight (c : Char) : Bool :=
  within [(0x34F, 0x34F), (0x17B4, 0x17B5), (0x180B, 0x180D), (0x180F, 0x180F), (0xFE00, 0xFE0F),
    (0xE0100, 0xE01EF)] c

/-- The ranges of code points without width that do not have the property Joining_Type with the
value Transparent. -/
def interruptingRanges : List (Nat × Nat) :=
  [(0x605, 0x605), (0x890, 0x891), (0x8E2, 0x8E2), (0x9BE, 0x9BE), (0x9D7, 0x9D7), (0xB3E, 0xB3E),
   (0xB57, 0xB57), (0xBBE, 0xBBE), (0xBD7, 0xBD7), (0xCC0, 0xCC0), (0xCC2, 0xCC2), (0xCC7, 0xCC8),
   (0xCCA, 0xCCB), (0xCD5, 0xCD6), (0xD3E, 0xD3E), (0xD4E, 0xD4E), (0xD57, 0xD57), (0xDCF, 0xDCF),
   (0xDDF, 0xDDF), (0x1160, 0x11FF), (0x180E, 0x180E), (0x1B35, 0x1B35), (0x1B3B, 0x1B3B),
   (0x1B3D, 0x1B3D), (0x1B43, 0x1B43), (0x200C, 0x200D), (0x2065, 0x2069), (0x302E, 0x302F),
   (0x3164, 0x3164), (0xA8FA, 0xA8FA), (0xD7B0, 0xD7C6), (0xD7CB, 0xD7FB), (0xFF9E, 0xFFA0),
   (0xFFF0, 0xFFF8), (0x111C2, 0x111C3), (0x1133E, 0x1133E), (0x11357, 0x11357),
   (0x114B0, 0x114B0), (0x114BD, 0x114BD), (0x115AF, 0x115AF), (0x11930, 0x11930),
   (0x1193F, 0x1193F), (0x11941, 0x11941), (0x11A3A, 0x11A3A), (0x11A84, 0x11A89),
   (0x11D46, 0x11D46), (0x11F02, 0x11F02), (0x1D165, 0x1D165), (0x1D16E, 0x1D172),
   (0xE0000, 0xE0000), (0xE0002, 0xE001F), (0xE0080, 0xE00FF), (0xE01F0, 0xE0FFF)]

/-- Whether Arabic letters join over the character. -/
def isTransparent (c : Char) : Bool := charWidth c == 0 && !within interruptingRanges c

/-- The ligature that a character makes with the letter behind it: the columns that the character
adds, and what then stands at the front.  A ligature that takes back a column which the letter
was given has a negative number. -/
def Letter.join? (l : Letter) (bound : Bool) (c : Char) : Option (Int × Glyph) :=
  match l with
  | .alef =>
    if isLam c then some (0, .plain)
    else if isTransparent c then some (0, .letter .alef bound)
    else none
  | l =>
    if c = joiner then some (0, .letter l true)
    else if isSlight c then some (0, .letter l bound)
    else
      match l with
      | .lamed => if bound && c == '\u05d0' then some (0, .plain) else none
      | .khmer => if c = '\u17d2' then some (-1, .plain) else none
      | .ya => if bound && c == '\u1a17' then some (0, .letter .vowelledYa false) else none
      | .vowelledYa => if c = '\u1a15' then some (0, .plain) else none
      | .tifinagh =>
        if c = '\u2d7f' then some (1, .letter .boundTifinagh false)
        else if bound && isTifinagh c then some (0, .plain)
        else none
      | .boundTifinagh => if isTifinagh c then some (-1, .plain) else none
      | .tone => if within [(0xA4F8, 0xA4FB)] c then some (0, .plain) else none
      | .turkicI => if bound && within [(0x10C32, 0x10C32)] c then some (0, .plain) else none
      | .alef => none

/-! ## Emoji -/

/-- The end of the tag of a flag. -/
def isTagEnd (c : Char) : Bool := within [(0xE007F, 0xE007F)] c

/-- The letters of the tag of a flag. -/
def isTagLetter (c : Char) : Bool := within [(0xE0061, 0xE007A)] c

/-- The digits of the tag of a flag. -/
def isTagDigit (c : Char) : Bool := within [(0xE0030, 0xE0039)] c

/-- The black flag, which a tag makes the flag of a region. -/
def isBlackFlag (c : Char) : Bool := within [(0x1F3F4, 0x1F3F4)] c

/-- The sequence that a character makes with the emoji behind it, as for `Letter.join?`. -/
def Picture.join? (p : Picture) (c : Char) : Option (Int × Glyph) :=
  match p with
  | .complete => if c = joiner then some (0, .picture .joined) else none
  | .modifier =>
    if isColourable c then some (0, .picture .complete)
    else if c = joiner then some (0, .picture .joined)
    else none
  | .indicator => if isIndicator c then some (1, .picture .indicators) else none
  | .indicators =>
    if isIndicator c then some (1, .picture .indicators)
    else if c = joiner then some (0, .picture .joined)
    else none
  | .joined =>
    if c = '\u20e3' then some (0, .picture .keycap)
    else if isIndicator c then some (1, .picture (.joinedIndicators 1))
    else if isModifier c then some (0, .picture .modifier)
    else if isTagEnd c then some (0, .picture (.tagLetters 0))
    else if isPicture c then some (0, .picture .complete)
    else none
  | .keycap => none
  | .joinedIndicators n =>
    if isIndicator c then
      some (if n % 2 = 1 then -1 else 3, .picture (.joinedIndicators (n + 1)))
    else if 2 ≤ n ∧ c = joiner then some (0, .picture .joined)
    else none
  | .tagLetters n =>
    if n < 6 ∧ isTagLetter c then some (0, .picture (.tagLetters (n + 1)))
    else if n ≤ 4 ∧ isTagDigit c then some (0, .picture (.tagDigits 1))
    else if 3 ≤ n ∧ isBlackFlag c then some (0, .picture .complete)
    else none
  | .tagDigits n =>
    if n < 3 ∧ isTagDigit c then some (0, .picture (.tagDigits (n + 1)))
    else if n = 3 ∧ isBlackFlag c then some (0, .picture .complete)
    else none

/-! ## Texts -/

namespace Glyph

/-- What a character makes with what stands behind it, as for `Letter.join?`. -/
def join? (g : Glyph) (c : Char) : Option (Int × Glyph) :=
  match g with
  | .plain => none
  | .letter l bound => l.join? bound c
  | .picture p => p.join? c

/-- What a character is to the one before it. -/
def ofChar (c : Char) : Glyph :=
  if c = '\u05dc' then .letter .lamed false
  else if isAlef c then .letter .alef false
  else if isKhmerLetter c then .letter .khmer false
  else if c = '\u1a10' then .letter .ya false
  else if isTifinagh c then .letter .tifinagh false
  else if within [(0xA4FC, 0xA4FD)] c then .letter .tone false
  else if within [(0x10C03, 0x10C03)] c then .letter .turkicI false
  else if isIndicator c then .picture .indicator
  else if isModifier c then .picture .modifier
  else if isPicture c then .picture .complete
  else .plain

/-- Whether what joins reaches over selectors, as ligatures do. -/
def passesSelectors : Glyph → Bool
  | .letter _ _ => true
  | _ => false

/-- Whether a picture is joined to the character before it. -/
def isJoined : Glyph → Bool
  | .picture .joined => true
  | .picture .keycap => true
  | _ => false

end Glyph

namespace Front

/-- The front without the selector for the picture, which did not meet its character. -/
def withoutPictureSelector (f : Front) : Front :=
  if !f.asPicture then f
  else if f.glyph.passesSelectors then { f with asPicture := false }
  else {}

/-- The front with the selector for the picture before it. -/
def selectPicture (f : Front) : Front :=
  if f.glyph.passesSelectors || f.glyph.isJoined then { f with asPicture := true }
  else { asPicture := true }

/-- The front with the selector for the letter form before it. -/
def selectText (f : Front) : Front :=
  if f.glyph.passesSelectors then { f with asText := true } else { asText := true }

/-- What a character that is no selector adds, if no selector stands behind it. -/
def placeUnselected (f : Front) (c : Char) : Int × Front :=
  match f.glyph.join? c with
  | some (n, g) => (n, { glyph := g })
  | none => (charWidth c, { glyph := Glyph.ofChar c })

/-- The columns that a character adds at the front of a text, and what then stands there. -/
def place (f : Front) (c : Char) : Int × Front :=
  if f.asPicture && isSelectable c then
    (if f.glyph.isJoined then 0 else 2, { glyph := .picture .complete })
  else
    let f := f.withoutPictureSelector
    if c.toNat ≤ 0xA0 then (1, {})
    else if c = pictureSelector then (0, f.selectPicture)
    else if c = textSelector then (0, f.selectText)
    else if f.asText && isNarrowedByText c then (1, {})
    else f.placeUnselected c

end Front

/-- The columns of a text, and what stands at its front. -/
def measured : List Char → Int × Front
  | [] => (0, {})
  | c :: l =>
    let (n, front) := measured l
    let (k, front) := front.place c
    (n + k, front)

/-- The number of columns that a text takes. -/
def width (l : List Char) : Nat := (measured l).1.toNat

end Text

end Automata
