import SchemeLayout.Layout.Keywords
import SchemeLayout.Text.Utf8

/-!
A layout style: the policies of the head symbols and the settings.
-/

set_option autoImplicit false

namespace SchemeLayout

def defaultTabWidth : UInt32 := 8

def defaultCommentMark : String := ";;"

structure Config where
  /-- Columns that a tab adds. -/
  tabWidth : UInt32 := defaultTabWidth
  /-- Whether a line break typed on a comment line starts another comment line. -/
  continueComments : Bool := true
  /-- What a comment line starts with. -/
  commentMark : Bytes := encode defaultCommentMark
  deriving DecidableEq, Repr

instance : Inhabited Config := ⟨{}⟩

structure Style where
  table : PolicyTable := .scheme
  config : Config := {}

instance : Inhabited Style := ⟨{}⟩

def Style.same (style other : Style) : Bool :=
  style.config == other.config && style.table.sameEntries other.table

end SchemeLayout
