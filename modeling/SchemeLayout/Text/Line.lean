import SchemeLayout.Text.Utf8

/-!
The line index of a text.

A line ends after a line feed, after a carriage return that no line feed
follows, or at the end of the text.  `lineStarts` lists where the lines start;
the lookups find the line of an offset and the ends of its content.
-/

set_option autoImplicit false

namespace SchemeLayout

def lineFeed : UInt8 := 0x0A

def carriageReturn : UInt8 := 0x0D

/-- The texts that end a line, longest first. -/
def lineDelimiters : List String := ["\r\n", "\n", "\r"]

/-- Whether a line ends after `byte` when `next` follows it. -/
@[inline] def endsLine (byte : UInt8) (next : Option UInt8) : Bool :=
  byte == lineFeed || (byte == carriageReturn && next != some lineFeed)

/-- The line starts after `offset`, where the bytes that follow it are given. -/
def lineStartsAfter (offset : Nat) : Bytes → List Nat
  | [] => []
  | byte :: rest =>
      if endsLine byte rest.head? then
        (offset + 1) :: lineStartsAfter (offset + 1) rest
      else
        lineStartsAfter (offset + 1) rest

def lineStarts (bytes : Bytes) : List Nat := 0 :: lineStartsAfter 0 bytes

def lineAt (starts : List Nat) (offset : Nat) : Nat := starts.countP (· ≤ offset) - 1

theorem lineAt_lt_length {starts : List Nat} (nonempty : starts ≠ []) (offset : Nat) :
    lineAt starts offset < starts.length := by
  have bound := List.countP_le_length (l := starts) (p := fun start => decide (start ≤ offset))
  have positive := List.length_pos_iff.mpr nonempty
  unfold lineAt
  omega

theorem mem_lineStartsAfter {offset start : Nat} {bytes : Bytes}
    (membership : start ∈ lineStartsAfter offset bytes) :
    offset < start ∧ start ≤ offset + bytes.length := by
  induction bytes generalizing offset with
  | nil => simp [lineStartsAfter] at membership
  | cons byte rest inductionHypothesis =>
      unfold lineStartsAfter at membership
      split at membership
      · rcases List.mem_cons.mp membership with rfl | later
        · simp
        · have bounds := inductionHypothesis later
          simp only [List.length_cons]
          omega
      · have bounds := inductionHypothesis membership
        simp only [List.length_cons]
        omega

theorem pairwise_lineStartsAfter (offset : Nat) (bytes : Bytes) :
    (lineStartsAfter offset bytes).Pairwise (· < ·) := by
  induction bytes generalizing offset with
  | nil => simp [lineStartsAfter]
  | cons byte rest inductionHypothesis =>
      unfold lineStartsAfter
      split
      · exact List.pairwise_cons.mpr
          ⟨fun start membership => (mem_lineStartsAfter membership).1,
            inductionHypothesis (offset + 1)⟩
      · exact inductionHypothesis (offset + 1)

theorem pairwise_lineStarts (bytes : Bytes) : (lineStarts bytes).Pairwise (· < ·) :=
  List.pairwise_cons.mpr
    ⟨fun _ membership => (mem_lineStartsAfter membership).1,
      pairwise_lineStartsAfter 0 bytes⟩

end SchemeLayout
