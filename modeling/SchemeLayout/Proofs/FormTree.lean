import SchemeLayout.Proofs.ColumnSums
import SchemeLayout.Proofs.Enclosing
import SchemeLayout.Proofs.Siblings

/-!
Indentation by the form tree.

The layout finds the forms around a line by moves through the text.  The tree
view starts from the other side: it takes the innermost list around the line and
the children of that list in front of the line, in order, and reads the column
off them.  The two views agree.
-/

set_option autoImplicit false

namespace SchemeLayout

/-- Whether an offset lies inside an atom or a string. -/
def cutsToken (classes : List ByteClass) (offset : Nat) : Bool :=
  joined (classes.take offset).getLast? (classes.drop offset).head?

/-- The last class in front of an offset that is no trivia. -/
def lastSignificant? (classes : List ByteClass) (offset : Nat) : Option ByteClass :=
  (before classes offset).find? fun cls => !cls.isTrivia

/-- The forms from a position on that end at or before an offset. -/
def formsUpTo (classes : List ByteClass) (pos offset : Nat) : List Form :=
  (formsFrom classes pos).filter fun form => form.stop ≤ offset

namespace Source

/-- The column that a list gives to a line behind some of its children. -/
def treeColumn (source : Source) (style : Style) (opening : Nat) (children : List Form) : Nat :=
  let column := source.columnSum style.config.tabWidth
  match children with
  | [] => column opening + 1
  | head :: arguments =>
      let last := arguments.getLastD head
      match (source.spanOf head).kind with
      | .list => column head.start
      | .string | .atom => column last.start
      | .symbol =>
          match style.table.policyFor (source.slice head.start head.stop) with
          | .sequence | .definition => column opening + 2
          | .branch => column opening + 4
          | .binding threshold =>
              if threshold.toNat < children.length then column opening + 2 else column opening + 4
          | .verbatim => column last.start
          | .standard =>
              -- The first argument behind the start of the line where the last child starts.
              let onLine := arguments.find? fun form => source.lineStart last.start < form.start
              column (onLine.getD last).start

end Source

section Children

variable {classes front inner : List ByteClass} {offset : Nat}

theorem unmarked_of_lastSignificant?
    (unprefixed : lastSignificant? classes offset ≠ some .prefixMark) :
    Unmarked (classes.take offset) := by
  rw [lastSignificant?, before_eq] at unprefixed
  rw [Unmarked]
  generalize (classes.take offset).reverse = back at unprefixed
  induction back with
  | nil => rfl
  | cons cls back inductionHypothesis =>
      cases isTrivia : cls.isTrivia with
      | true =>
          rw [markLength_cons_of_trivia isTrivia]
          exact inductionHypothesis (by simpa [isTrivia] using unprefixed)
      | false =>
          refine markLength_cons_of_not_isLead ?_ back
          cases cls <;> first | rfl | contradiction

theorem formsFrom_eq_append (within : offset ≤ classes.length)
    (uncut : cutsToken classes offset = false)
    (unprefixed : lastSignificant? classes offset ≠ some .prefixMark)
    (split : classes.take offset = front ++ inner) (balanced : Balanced inner) :
    formsFrom classes front.length =
      formsAhead front.length inner ++ formsAhead offset (classes.drop offset) := by
  have length := congrArg List.length split
  simp only [List.length_take, List.length_append] at length
  have unmarked := unmarked_of_lastSignificant? unprefixed
  rw [split, Unmarked, List.reverse_append] at unmarked
  have apart : joined inner.getLast? (classes.drop offset).head? = false := by
    rw [cutsToken, split, List.getLast?_append] at uncut
    cases last : inner.getLast? with
    | none => rfl
    | some cls => rwa [last, Option.some_or] at uncut
  rw [formsFrom, drop_of_take_eq split, Nat.min_eq_left (by omega),
    formsAhead_append balanced (markLength_of_append unmarked) apart,
    show front.length + inner.length = offset by omega]

theorem formsUpTo_eq (within : offset ≤ classes.length)
    (uncut : cutsToken classes offset = false)
    (unprefixed : lastSignificant? classes offset ≠ some .prefixMark)
    (split : classes.take offset = front ++ inner) (balanced : Balanced inner) :
    formsUpTo classes front.length offset = formsAhead front.length inner := by
  have length := congrArg List.length split
  simp only [List.length_take, List.length_append] at length
  rw [formsUpTo, formsFrom_eq_append within uncut unprefixed split balanced, List.filter_append]
  have kept : (formsAhead front.length inner).filter (fun form => form.stop ≤ offset) =
      formsAhead front.length inner := by
    rw [List.filter_eq_self]
    intro form member
    have bounds := formsAhead_bounds member
    simp only [decide_eq_true_eq]
    omega
  have dropped : (formsAhead offset (classes.drop offset)).filter
      (fun form => form.stop ≤ offset) = [] := by
    rw [List.filter_eq_nil_iff]
    intro form member
    have bounds := formsAhead_bounds member
    simp only [decide_eq_true_eq]
    omega
  rw [kept, dropped, List.append_nil]

theorem formsBefore_of_take_eq (split : classes.take offset = front ++ inner)
    (balanced : Balanced inner) (fresh : Fresh front inner) :
    formsBefore classes offset =
      (formsAhead front.length inner).reverse ++ formsBehind front.length front.reverse := by
  have length := congrArg List.length split
  simp only [List.length_take, List.length_append] at length
  rw [formsBefore, before_eq, split, show min offset classes.length = front.length + inner.length by
    omega]
  exact formsBehind_append balanced front fresh front.length

theorem formsBehind_opening (pos : Nat) (front : List ByteClass) :
    formsBehind pos (front ++ [ByteClass.opening]).reverse = [] :=
  formsBehind_of_none pos (readBackward_of_opening allTrivia_nil)

/-- Inside a list the forms in front of an offset are its children, nearest first. -/
theorem formsBefore_eq_reverse_of_list
    (split : classes.take offset = front ++ .opening :: inner) (balanced : Balanced inner) :
    formsBefore classes offset = (formsAhead (front.length + 1) inner).reverse := by
  have split : classes.take offset = (front ++ [.opening]) ++ inner := by simp [split]
  have enumerated := formsBefore_of_take_eq split balanced (fresh_opening front inner)
  rwa [formsBehind_opening, List.append_nil, List.length_append] at enumerated

end Children

theorem formBackward_of_formsBefore {classes : List ByteClass} {offset : Nat} {form : Form}
    {forms : List Form} (enumerated : formsBefore classes offset = form :: forms) :
    formBackward classes offset = some form ∧ formsBefore classes form.start = forms := by
  rw [formsBefore_eq] at enumerated
  split at enumerated
  next => contradiction
  next found =>
    cases enumerated
    exact ⟨found, rfl⟩

theorem formForward_of_formsFrom {classes : List ByteClass} {pos : Nat} {form : Form}
    {forms : List Form} (enumerated : formsFrom classes pos = form :: forms) :
    formForward classes pos = some form := by
  rw [formsFrom_eq] at enumerated
  split at enumerated
  next => contradiction
  next found =>
    cases enumerated
    exact found

/-- At an opening bracket the form read forward is the list that it opens. -/
theorem formForward_of_opening {classes : List ByteClass} {opening : Nat}
    (isOpening : classes[opening]? = some .opening) :
    formForward classes opening =
      some ⟨opening, opening, opening + (bodyForward (classes.drop opening)).1, .list⟩ := by
  obtain ⟨inRange, isOpening⟩ := List.getElem?_eq_some_iff.mp isOpening
  rw [formForward, List.drop_eq_getElem_cons inRange, isOpening, Nat.min_eq_left (by omega)]
  simp [readForward, runLength, Reading.formAfter, bodyForward, ByteClass.isTrivia,
    ByteClass.isLead]

/-- In an increasing list, the last of the entries above a bound, counted from the
back, is the first of them. -/
theorem getLastD_takeWhile_reverse {starts : List Nat} (sorted : starts.Pairwise (· < ·))
    (bound fallback : Nat) :
    (starts.reverse.takeWhile (bound < ·)).getLastD fallback =
      (starts.find? (bound < ·)).getD fallback := by
  induction starts with
  | nil => rfl
  | cons start starts inductionHypothesis =>
      obtain ⟨least, sortedRest⟩ := List.pairwise_cons.mp sorted
      rw [List.reverse_cons, List.find?_cons]
      by_cases above : bound < start
      · have inRest : ∀ other ∈ starts.reverse, decide (bound < other) = true := by
          intro other member
          exact decide_eq_true (Nat.lt_trans above (least other (List.mem_reverse.mp member)))
        rw [List.takeWhile_append_of_pos inRest]
        simp [above]
      · rw [List.takeWhile_append]
        simp only [above, decide_false, List.takeWhile_cons, Bool.false_eq_true, if_false,
          List.append_nil]
        rw [← inductionHypothesis sortedRest]
        split
        next whole =>
          rw [(List.takeWhile_prefix (bound < ·)).eq_of_length whole]
        next => rfl

theorem reverse_cons_eq_getLastD {Alpha : Type} (head : Alpha) (rest : List Alpha) :
    (head :: rest).reverse = rest.getLastD head :: (head :: rest).dropLast.reverse := by
  have parts := List.dropLast_concat_getLast (List.cons_ne_nil head rest)
  rw [List.getLast_eq_getLastD] at parts
  have turned := congrArg List.reverse parts
  rw [List.reverse_concat] at turned
  exact turned.symm

namespace Source

variable {source : Source}

theorem head?_of_opening {opening : Nat}
    (isOpening : source.classes[opening]? = some .opening) :
    source.head? opening = source.formAfter? (opening + 1) := by
  simp only [head?, interior?, formForward_of_opening isOpening, if_true]

/-- The first argument on the line of the last child, found from the enumeration
backward. -/
theorem leftmostOnLine_eq {offset : Nat} {head last : Form} {arguments : List Form}
    (enumerated : formsBefore source.classes offset = (head :: arguments).reverse)
    (sorted : (head :: arguments).Pairwise fun first second => first.start < second.start)
    (isLast : formBackward source.classes offset = some last) :
    source.leftmostOnLine last.start =
      ((arguments.find? fun form => source.lineStart last.start < form.start).getD last).start := by
  rw [formsBefore_eq, isLast] at enumerated
  simp only at enumerated
  have starts : last.start :: (formsBefore source.classes last.start).map Form.start =
      (arguments.map Form.start).reverse ++ [head.start] := by
    rw [← List.map_cons, enumerated]
    simp
  have sortedStarts : (arguments.map Form.start).Pairwise (· < ·) :=
    List.pairwise_map.mpr (List.pairwise_cons.mp sorted).2
  simp only [leftmostOnLine, walkLeft_eq, starts, List.dropLast_concat]
  rw [getLastD_takeWhile_reverse sortedStarts, List.find?_map, Option.getD_map]
  rfl

theorem anchor_of_children {offset opening : Nat} {head last : Form}
    (isLast : formBackward source.classes offset = some last)
    (around : openBackward source.classes last.start 0 = some opening)
    (isHead : formForward source.classes (opening + 1) = some head) :
    source.anchor offset =
      match (source.spanOf head).kind with
      | .symbol => .symbolHead last.start opening (source.slice head.start head.stop)
      | .list => .listHead head.start
      | .string | .atom => .leafHead last.start := by
  have headIs := head?_of_opening (getElem?_of_openBackward around)
  cases kind : (source.spanOf head).kind <;>
    simp only [anchor, formBefore?, isLast, Option.map_some, enclosing?, start_spanOf, around,
      anchorInList, headIs, formAfter?, isHead, kind, stop_spanOf]

theorem alignment?_of_nothing (table : PolicyTable) {offset : Nat}
    (nothing : formBackward source.classes offset = none) :
    source.alignment? table offset =
      (openBackward source.classes offset 0).map fun opening => ⟨opening, 1⟩ := by
  simp only [alignment?, anchor, formBefore?, nothing, Option.map_none, enclosing?]
  cases openBackward source.classes offset 0 with
  | none => rfl
  | some opening => rfl

theorem alignment?_of_outside (table : PolicyTable) {offset : Nat} {last : Form}
    (isLast : formBackward source.classes offset = some last)
    (outside : openBackward source.classes last.start 0 = none) :
    source.alignment? table offset = some ⟨last.start, 0⟩ := by
  simp only [alignment?, anchor, formBefore?, isLast, Option.map_some, enclosing?, start_spanOf,
    outside, Option.map_none]

/-- The column of a line in a list is the one that the children of the list give. -/
theorem indentationSum_of_list (style : Style) {offset opening : Nat}
    (around : openBackward source.classes offset 0 = some opening) {children : List Form}
    (enumerated : formsBefore source.classes offset = children.reverse)
    (sorted : children.Pairwise fun first second => first.start < second.start)
    (isHead : ∀ head ∈ children.head?, formForward source.classes (opening + 1) = some head)
    (sameList : ∀ child ∈ children, openBackward source.classes child.start 0 = some opening) :
    source.indentationSum style offset = source.treeColumn style opening children := by
  cases children with
  | nil =>
      rw [indentationSum, alignment?_of_nothing _ (formsBefore_eq_nil_iff.mp enumerated), around]
      rfl
  | cons head arguments =>
      have lastFirst := enumerated
      rw [reverse_cons_eq_getLastD] at lastFirst
      have isLast := (formBackward_of_formsBefore lastFirst).1
      have found := anchor_of_children isLast (sameList _ List.getLastD_mem_cons) (isHead head rfl)
      have leftmost := leftmostOnLine_eq enumerated sorted isLast
      simp only [indentationSum, alignment?, found, treeColumn]
      cases (source.spanOf head).kind with
      | list => rfl
      | string => rfl
      | atom => rfl
      | symbol =>
          simp only
          cases style.table.policyFor (source.slice head.start head.stop) with
          | sequence | definition | branch | verbatim => rfl
          | standard =>
              simp only [policyAlignment, Policy.fixedOffset?, leftmost]
              rfl
          | binding threshold =>
              simp only [policyAlignment_binding, enumerated, List.length_reverse]
              split <;> rfl

/-- The column of a line outside all lists is that of the last form before it. -/
theorem indentationSum_of_topLevel (style : Style) {offset : Nat}
    (outside : openBackward source.classes offset 0 = none) {forms : List Form}
    (enumerated : formsBefore source.classes offset = forms.reverse)
    (allOutside : ∀ form ∈ forms, openBackward source.classes form.start 0 = none) :
    source.indentationSum style offset =
      match forms.getLast? with
      | none => 0
      | some last => source.columnSum style.config.tabWidth last.start := by
  cases forms with
  | nil =>
      rw [indentationSum, alignment?_of_nothing _ (formsBefore_eq_nil_iff.mp enumerated), outside]
      rfl
  | cons first rest =>
      have lastFirst := enumerated
      rw [reverse_cons_eq_getLastD] at lastFirst
      have isLast := (formBackward_of_formsBefore lastFirst).1
      rw [List.getLast?_cons, ← List.getLastD_eq_getLast?, indentationSum,
        alignment?_of_outside _ isLast (allOutside _ List.getLastD_mem_cons)]
      rfl

end Source

theorem openBackward_start {classes front inner : List ByteClass} {offset : Nat}
    (split : classes.take offset = front ++ .opening :: inner) (balanced : Balanced inner)
    {form : Form} (member : form ∈ formsAhead (front.length + 1) inner) :
    openBackward classes form.start 0 = some front.length := by
  have bounds := formsAhead_bounds member
  have length := congrArg List.length split
  simp only [List.length_take, List.length_append, List.length_cons] at length
  have cut : classes.take form.start =
      front ++ .opening :: inner.take (form.start - (front.length + 1)) := by
    have taken := congrArg (List.take form.start) split
    rw [List.take_take, Nat.min_eq_left (by omega), List.take_append,
      List.take_of_length_le (l := front) (by omega),
      show form.start - front.length = form.start - (front.length + 1) + 1 by omega,
      List.take_succ_cons] at taken
    exact taken
  exact openBackward_eq_some_iff.mpr ⟨front, _, cut, balanced_take_start balanced member, rfl⟩

theorem openBackward_start_eq_none {classes : List ByteClass} {offset : Nat}
    (balanced : Balanced (classes.take offset)) {form : Form}
    (member : form ∈ formsAhead 0 (classes.take offset)) :
    openBackward classes form.start 0 = none := by
  have bounds := formsAhead_bounds member
  rw [List.length_take] at bounds
  have front := balanced_take_start balanced member
  rw [List.take_take, Nat.sub_zero, Nat.min_eq_left (by omega)] at front
  rw [openBackward, before_eq, front.openWithin_reverse_eq_none]
  rfl

/-- A line is indented as the form tree says.  In a list, its column comes from the
children of the innermost list around it that end in front of it; outside all
lists and behind no stray bracket, it is that of the last form in front of it.
The offset must not cut a token, nor a prefix mark off its form.  The columns of
the tree are numbers, and the layout computes them in machine words. -/
theorem indentation_eq_treeColumn (source : Source) (style : Style) (offset : Nat)
    (within : offset ≤ source.length)
    (uncut : cutsToken source.classes offset = false)
    (unprefixed : lastSignificant? source.classes offset ≠ some .prefixMark) :
    (∀ opening, IsInnermost source.classes opening offset →
      IsWordOf (source.indentation style offset)
        (source.treeColumn style opening (formsUpTo source.classes (opening + 1) offset))) ∧
    ((∀ opening, ¬ Encloses source.classes opening offset) →
      NoStrayClose source.classes offset →
      IsWordOf (source.indentation style offset)
        (match (formsUpTo source.classes 0 offset).getLast? with
          | none => 0
          | some last => source.columnSum style.config.tabWidth last.start)) := by
  have isWord := source.isWordOf_indentation style offset
  rw [← source.length_classes] at within
  constructor
  · intro opening innermost
    have around := (openBackward_eq_some_iff_isInnermost within).mpr innermost
    obtain ⟨front, inner, split, balanced, rfl⟩ := openBackward_eq_some_iff.mp around
    have inside : source.classes.take offset = (front ++ [.opening]) ++ inner := by simp [split]
    have upTo := formsUpTo_eq within uncut unprefixed inside balanced
    have forms := formsFrom_eq_append within uncut unprefixed inside balanced
    rw [List.length_append, List.length_singleton] at upTo forms
    rw [Source.indentationSum_of_list style around (formsBefore_eq_reverse_of_list split balanced)
      (pairwise_start_formsAhead _ _) ?_
      (fun child member => openBackward_start split balanced member)] at isWord
    · rwa [upTo]
    · intro head isHead
      obtain ⟨arguments, children⟩ := List.head?_eq_some_iff.mp isHead
      rw [children] at forms
      exact formForward_of_formsFrom forms
  · intro outside noStray
    have unopened := openBackward_eq_none outside within
    have balanced := balanced_take_of_noStrayClose unopened noStray
    have split : source.classes.take offset = [] ++ source.classes.take offset := rfl
    have upTo := formsUpTo_eq within uncut unprefixed split balanced
    have enumerated := formsBefore_of_take_eq split balanced (fresh_nil _)
    rw [List.reverse_nil, formsBehind_of_none _ rfl, List.append_nil] at enumerated
    rw [List.length_nil] at upTo enumerated
    rw [Source.indentationSum_of_topLevel style unopened enumerated
      fun form member => openBackward_start_eq_none balanced member] at isWord
    rwa [upTo]

/-- A line in a call, behind its first argument, and a line behind a quoted list. -/
theorem indentation_in_call_and_at_top :
    ((Source.ofString "(do ((i 0))\n  (f i\n").indentation {} 19).toNat = 5 ∧
      ((Source.ofString "a '(b\n c)\n").indentation {} 10).toNat = 2 := by
  have call := (indentation_eq_treeColumn (.ofString "(do ((i 0))\n  (f i\n") {} 19
    (by decide +kernel) (by decide +kernel) (by decide +kernel)).1
  have top := (indentation_eq_treeColumn (.ofString "a '(b\n c)\n") {} 10
    (by decide +kernel) (by decide +kernel) (by decide +kernel)).2
  constructor
  · have inCall := call 14
      ((openBackward_eq_some_iff_isInnermost (by decide +kernel)).mp (by decide +kernel))
    exact (inCall.fits (by decide +kernel)).trans (by decide +kernel)
  · refine ((top ?_ ?_).fits (by decide +kernel)).trans (by decide +kernel)
    · intro opening encloses
      obtain ⟨inner, found, _⟩ := exists_open_of_encloses encloses
      rw [show openBackward (Source.ofString "a '(b\n c)\n").classes 10 0 = none by decide +kernel]
        at found
      contradiction
    · intro pos isBefore
      revert pos
      decide +kernel

-- The bracket stands in the last column that a word holds.
example : (Source.ofString "\t(").indentation { config := { tabWidth := 4294967295 } } 2 = 0 ∧
    (Source.ofString "\t(").treeColumn { config := { tabWidth := 4294967295 } } 1 [] =
      4294967296 := by
  decide +kernel

end SchemeLayout
