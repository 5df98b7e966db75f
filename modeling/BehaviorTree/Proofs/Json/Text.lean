import BehaviorTree.Json.Text
import BehaviorTree.Json.Writer

/-!
# Texts survive JSON

Each character of a text is written as one piece, `written c`: itself, or for a control without a
short escape its UTF-16 unit. The pieces are taken in as they were written (`takePieces_written`)
and put together to the text again (`textOf_written`), so a written text is read as itself
(`takePieces_text`).
-/

namespace BehaviorTree.Json

/-! ## One character -/

/-- Whether a character has an escape of its own. -/
def hasShortEscape (c : Char) : Bool := c ∈ ['"', '\\', '\x08', '\t', '\n', '\x0c', '\r']

/-- The piece that a character is written as. -/
def written (c : Char) : Piece :=
  if c.toNat < 0x20 ∧ ¬hasShortEscape c then .unit c.toNat else .char c

theorem hex4?_hexByte : ∀ n < 0x20,
    hex4? '0' '0' (Nat.digitChar (n / 16)) (Nat.digitChar (n % 16)) = some n := by
  decide

theorem takePieces_plain {c : Char} (hq : c ≠ '"') (hb : c ≠ '\\') (hc : 0x20 ≤ c.toNat)
    (taken : List Piece) (rest : List Char) :
    takePieces taken (c :: rest) = takePieces (.char c :: taken) rest := by
  rw [takePieces.eq_def]
  split
  case h_7 heq =>
    cases heq
    rw [if_neg (by omega)]
  all_goals simp_all

theorem takePieces_written (c : Char) (taken : List Piece) (rest : List Char) :
    takePieces taken ((escaped c).toList ++ rest) = takePieces (written c :: taken) rest := by
  unfold escaped
  split
  case h_8 _ hq hb hbs ht hn hf hr =>
    have short : hasShortEscape c = false := by
      simp_all [hasShortEscape]
    split
    · next hc =>
      have hw : written c = .unit c.toNat := by simp [written, hc, short]
      simp only [hexByte, String.toList_append, String.toList_ofList, hw]
      simp [takePieces, hex4?_hexByte _ hc]
    · next hc =>
      have hw : written c = .char c := by simp [written, hc]
      simpa [hw] using takePieces_plain hq hb (by omega) taken rest
  all_goals simp [takePieces, shortEscape?, written, hasShortEscape]

theorem assemble_written (ending : Option Fault) (done : List Char) (c : Char)
    (more : List Piece) :
    assemble ending done (written c :: more) = assemble ending (c :: done) more := by
  unfold written
  split
  · next h =>
    have trailing : isTrailing c.toNat = false := by simp [isTrailing]; omega
    have leading : isLeading c.toNat = false := by simp [isLeading]; omega
    rw [assemble.eq_def]
    simp [trailing, leading]
  · simp [assemble]

/-! ## A whole text -/

/-- The characters of a text as they are written between quotes. -/
def escapedText (s : List Char) : List Char := s.flatMap fun c => (escaped c).toList

theorem toList_writeText (out s : String) :
    (writeText out s).toList = out.toList ++ '"' :: (escapedText s.toList ++ ['"']) := by
  have go (l : List Char) (out : String) :
      (l.foldl (fun out c => out ++ escaped c) out).toList = out.toList ++ escapedText l := by
    induction l generalizing out with
    | nil => simp [escapedText]
    | cons c l ih => simp [ih, escapedText]
  simp [writeText, String.foldl_eq_foldl_toList, go]

theorem takePieces_text (s : List Char) (taken : List Piece) (rest : List Char) :
    takePieces taken (escapedText s ++ '"' :: rest) =
      (taken.reverse ++ s.map written, .ok rest) := by
  induction s generalizing taken with
  | nil => simp [escapedText, takePieces]
  | cons c s ih =>
    have step : escapedText (c :: s) = (escaped c).toList ++ escapedText s := by
      simp [escapedText]
    rw [step, List.append_assoc, takePieces_written, ih]
    simp

theorem assemble_text (s done : List Char) :
    assemble none done (s.map written) = .ok (done.reverse ++ s) := by
  induction s generalizing done with
  | nil => simp [assemble]
  | cons c s ih => simp [assemble_written, ih]

theorem textOf_written (s : String) : textOf none (s.toList.map written) = .ok s := by
  simp [textOf, assemble_text, Except.map]

end BehaviorTree.Json
