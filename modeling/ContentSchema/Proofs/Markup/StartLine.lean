import ContentSchema.Proofs.Markup.Line
import ContentSchema.Proofs.Markup.Listing
import ContentSchema.Proofs.Markup.Opening
import ContentSchema.Proofs.Text.Utf8

/-!
# Lines of start tags

The elements of a document stand in the order of their start tags, and reading keeps the line that
it finds for each of them (`openings_of_read`). That line is the one of the last bracket before the
end of the tag. It is sought in the whole text, while the end of a tag is counted from behind the
byte order mark, so that three bytes of the tag are not seen in a document with this mark
(`startLine_iff`).

Result: the line of an element is the one on which its start tag begins, unless a bracket stands in
the tag behind a line feed (`lines_of_read`). It is another one just then, if the document has no
byte order mark; with the mark it may also be another one if the tag has no more than three bytes.
-/
namespace ContentSchema.Markup

open Document (listing listingOf listing_eq)
open Text (asciiByte count_asciiByte map_asciiByte_sublist toList_data_toUTF8)

/-! ## Names and lines in document order -/

/-- The names and lines of the elements in a tree, in document order. -/
def Element.outline (e : Element) : List (String × Option Nat) :=
  (listing e).map fun x => (x.tag, x.line)

namespace Element

theorem outline_eq (e : Element) : e.outline = (e.tag, e.line) :: e.children.flatMap outline := by
  have hall (es : List Element) :
      (listingOf es).map (fun x => (x.tag, x.line)) = es.flatMap outline := by
    induction es with
    | nil => rfl
    | cons e es ih => rw [listingOf, List.map_append, ih, List.flatMap_cons, outline]
  rw [outline, listing_eq, List.map_cons, hall]

theorem outline_withText (e : Element) (text : Option String) :
    ({ e with text } : Element).outline = e.outline := by
  rw [outline_eq, outline_eq e]

theorem outline_push (e child : Element) : (e.push child).outline = e.outline ++ child.outline := by
  rw [outline_eq, outline_eq e, push, List.flatMap_append, List.flatMap_singleton, List.cons_append]

end Element

namespace PartialDocument

variable {bytes : List UInt8} {d d' : PartialDocument}

/-- The names and lines of the elements so far, in document order. -/
def outline (d : PartialDocument) : List (String × Option Nat) :=
  d.root.toList.flatMap Element.outline ++ d.opened.reverse.flatMap (·.element.outline)

theorem outline_cons (o : OpenElement) (os : List OpenElement) (root : Option Element) :
    outline ⟨o :: os, root⟩ = outline ⟨os, root⟩ ++ o.element.outline := by
  simp only [outline, List.reverse_cons, List.flatMap_append, List.flatMap_singleton,
    List.append_assoc]

theorem TakesText.outline (h : TakesText d d') : d'.outline = d.outline := by
  cases h with
  | dropped => rfl
  | text => rw [outline_cons, outline_cons, Element.outline_withText]

theorem Adds.outline {e : Element} (h : Adds e d d') : d'.outline = d.outline ++ e.outline := by
  cases h with
  | inside => rw [outline_cons, outline_cons, Element.outline_push, List.append_assoc]
  | root => simp [PartialDocument.outline]

/-- Whether a name and a line are those that reading finds for a start tag. -/
def Notes (bytes : List UInt8) (tag : List Char) (stop : Nat) (p : String × Option Nat) : Prop :=
  (∃ bindings, resolveName bindings true (tagName tag) = .ok p.1) ∧
    p.2 = some (startLine bytes stop)

theorem OpenedBy.outline {tag : List Char} {stop : Nat} {e : Element}
    (h : OpenedBy bytes tag stop e) : e.outline = [(e.tag, e.line)] := by
  rw [Element.outline_eq, h.children, List.flatMap_nil]

theorem startTag?_of_not_isTag {t : Token} (h : t.isTag = false) : t.startTag? = none := by
  cases t <;> first | rfl | cases h

/-- One token: a start tag adds one element at the end, and no other token adds any. -/
theorem outline_add {t : Token} {stop : Nat} (h : d.add bytes (t, stop) = .ok d') :
    ∃ new, d'.outline = d.outline ++ new ∧
      List.Forall₂ (fun tag p => Notes bytes tag stop p) t.startTag?.toList new := by
  cases step_of_add h with
  | text ht htext =>
    rw [startTag?_of_not_isTag ht]
    exact ⟨[], by rw [htext.outline, List.append_nil], .nil⟩
  | @opening _ tag _ o ho =>
    have hopened := openedBy_of_openElement ho
    refine ⟨[(o.element.tag, o.element.line)], ?_, .cons ⟨hopened.named, hopened.line⟩ .nil⟩
    rw [outline_cons, hopened.outline]
  | @empty _ _ tag _ o ho hadds =>
    have hopened := openedBy_of_openElement ho
    refine ⟨[(o.element.tag, o.element.line)], ?_, .cons ⟨hopened.named, hopened.line⟩ .nil⟩
    rw [hadds.outline, hopened.outline]
  | closing _ hadds =>
    refine ⟨[], ?_, .nil⟩
    rw [hadds.outline, Element.outline_withText, outline_cons, List.append_nil]

end PartialDocument

/-! ## Places in bytes -/

theorem utf8Length_append (as bs : List Char) :
    utf8Length (as ++ bs) = utf8Length as + utf8Length bs := by
  induction as with
  | nil => rw [List.nil_append, utf8Length, Nat.zero_add]
  | cons a as ih => rw [List.cons_append, utf8Length, utf8Length, ih, Nat.add_assoc]

theorem length_flatMap_encodeChar (cs : List Char) :
    (cs.flatMap String.utf8EncodeChar).length = utf8Length cs := by
  induction cs with
  | nil => rfl
  | cons c cs ih =>
    rw [List.flatMap_cons, List.length_append, String.length_utf8EncodeChar, ih, utf8Length]

theorem bytesBefore_append (markup rest : List Char) :
    bytesBefore rest (markup ++ rest) = utf8Length markup := by
  rw [bytesBefore, List.length_append, Nat.add_sub_cancel, List.take_left]

/-- Whether a name and a line are those that reading finds for a start tag at its place. -/
def Opening.Noted (bytes : List UInt8) (s : Opening) : String × Option Nat → Prop :=
  PartialDocument.Notes bytes s.tag (utf8Length (s.before ++ s.markup))

/-- The tokens of the rest of a document add one element for each of their start tags. -/
theorem outline_tokensFrom {bytes : List UInt8} {d d' : PartialDocument} {before cs : List Char}
    (h : (tokensFrom (utf8Length before) cs).tokens.foldlM (PartialDocument.add bytes) d = .ok d') :
    ∃ new, d'.outline = d.outline ++ new ∧
      List.Forall₂ (Opening.Noted bytes) (openingsFrom before cs) new := by
  induction cs using tokens_induction generalizing before d with
  | finish cs hend =>
    rw [tokens_of_no_token hend] at h
    cases h
    rw [openingsFrom_end hend]
    exact ⟨[], (List.append_nil _).symm, .nil⟩
  | token markup rest t hnext _ ih =>
    rw [tokensFrom_token hnext, bytesBefore_append, ← utf8Length_append, List.foldlM_cons] at h
    obtain ⟨d₁, hfirst, hmore⟩ := exists_of_bind h
    obtain ⟨first, hd₁, hfirst⟩ := PartialDocument.outline_add hfirst
    obtain ⟨more, hd', hmore⟩ := ih hmore
    refine ⟨first ++ more, by rw [hd', hd₁, List.append_assoc], ?_⟩
    rw [openingsFrom_token hnext, Option.toList_map]
    exact List.rel_append (List.forall₂_map_left_iff.2 hfirst) hmore

/-- The elements of a document are those of its first start tags, in document order. -/
theorem openings_of_read {text : String} {root : Element} (h : Element.read text = .ok root) :
    ∃ tags others, openings text = tags ++ others ∧
      List.Forall₂ (Opening.Noted text.toUTF8.data.toList) tags root.outline := by
  obtain ⟨d, hd, h⟩ := exists_of_bind h
  have hroot : d.root = some root := by
    split at h
    · cases h
    · rename_i hroot
      cases h
      exact hroot
    · cases h
  obtain ⟨new, hnew, hnoted⟩ := @outline_tokensFrom _ _ _ [] _ hd
  rw [PartialDocument.outline, hroot] at hnew
  have hsplit : new = root.outline ++ d.opened.reverse.flatMap (·.element.outline) := by
    simpa [PartialDocument.outline] using hnew.symm
  subst hsplit
  exact ⟨_, _, (List.take_append_drop _ _).symm, List.forall₂_take_append _ _ _ hnoted⟩

/-! ## The last bracket -/

theorem lastBracket_append {front behind : List UInt8} (h : 60 ∉ behind) :
    lastBracket (front ++ 60 :: behind) = front.length := by
  have hall : ∀ b ∈ behind.reverse, (b != 60) = true := fun b hb => bne_iff_ne.2 fun heq =>
    h (heq ▸ List.mem_reverse.1 hb)
  rw [lastBracket, List.reverse_append, List.reverse_cons, List.append_assoc,
    List.dropWhile_append_of_pos hall, List.singleton_append,
    List.dropWhile_cons_of_neg (by decide), List.length_cons, List.length_reverse, Nat.add_sub_cancel]

/-- The line of the last bracket before a place. -/
theorem startLine_append {front behind : List UInt8} (h : 60 ∉ behind) (after : List UInt8) :
    startLine (front ++ 60 :: behind ++ after) (front ++ 60 :: behind).length =
      1 + front.count 10 := by
  rw [startLine, List.take_left, lastBracket_append h, lineAt, List.append_assoc, List.take_left]

/-- Which characters stand before the last one of a kind. -/
theorem pair_sublist_iff {α : Type} {x y : α} (hne : x ≠ y) {front behind : List α}
    (h : y ∉ behind) : [x, y].Sublist (front ++ y :: behind) ↔ x ∈ front := by
  constructor
  · intro hpair
    obtain ⟨first, others, heq, hfirst, hothers⟩ := List.sublist_append_iff.1 hpair
    cases first with
    | nil =>
      rw [List.nil_append] at heq
      rw [← heq] at hothers
      rcases List.cons_sublist_cons'.1 hothers with hlater | ⟨hxy, -⟩
      · exact absurd (hlater.subset (.tail _ (.head _))) h
      · exact absurd hxy hne
    | cons z first =>
      obtain ⟨rfl, -⟩ := List.cons.inj heq
      exact hfirst.subset (.head _)
  · intro hx
    have hy : [y].Sublist (y :: behind) := List.singleton_sublist.2 (.head _)
    exact (List.singleton_sublist.2 hx).append hy

/-- That line is the one on which a tag begins just if no bracket stands in the tag behind a line
feed. -/
theorem startLine_eq_iff (before markup after : List UInt8) :
    startLine (before ++ 60 :: markup ++ after) (before ++ 60 :: markup).length =
      1 + before.count 10 ↔ ¬ [10, 60].Sublist (60 :: markup) := by
  obtain ⟨behind, front, hrev, hbehind⟩ :=
    List.eq_append_cons_of_mem (List.mem_reverse.2 (List.mem_cons_self (a := 60) (l := markup)))
  have hlast : 60 :: markup = front.reverse ++ 60 :: behind.reverse := by
    rw [← List.reverse_reverse (60 :: markup), hrev, List.reverse_append, List.reverse_cons,
      List.append_assoc, List.singleton_append]
  have hbehind : 60 ∉ behind.reverse := fun h => hbehind (List.mem_reverse.1 h)
  rw [hlast, ← List.append_assoc before, startLine_append hbehind, List.count_append,
    pair_sublist_iff (by decide) hbehind, ← List.count_eq_zero]
  omega

/-! ## The lines of a document -/

/-- Whether a bracket stands in a start tag behind a line feed. -/
def Opening.Broken (s : Opening) : Prop := ['\n', '<'].Sublist s.markup

instance (s : Opening) : Decidable s.Broken := List.instDecidableSublistOfDecidableEq _ _

/-- Reading finds the line on which a tag begins just if no bracket stands behind a line feed in
what it sees of the tag: as many bytes as are skipped at the start of the text are not seen. -/
theorem startLine_iff {markup : List Char} (hmarkup : markup.head? = some '<')
    (skipped : List UInt8) (hskipped : skipped.length < utf8Length markup) (before after : List Char) :
    startLine (skipped ++ (before ++ markup ++ after).flatMap String.utf8EncodeChar)
        (utf8Length (before ++ markup)) = 1 + (skipped.count 10 + before.count '\n') ↔
      ¬ [10, 60].Sublist ((markup.flatMap String.utf8EncodeChar).take
        (utf8Length markup - skipped.length)) := by
  obtain ⟨tail, rfl⟩ := List.head?_eq_some_iff.1 hmarkup
  have hlength := length_flatMap_encodeChar ('<' :: tail)
  obtain ⟨n, hn⟩ := Nat.exists_eq_add_of_le' (Nat.sub_pos_of_lt hskipped)
  generalize hbytes : ('<' :: tail).flatMap String.utf8EncodeChar = bytes at hlength ⊢
  have hfound : bytes.take (n + 1) = 60 :: (tail.flatMap String.utf8EncodeChar).take n := by
    rw [← hbytes]
    rfl
  have hcount : before.count '\n' = (before.flatMap String.utf8EncodeChar).count 10 :=
    (count_asciiByte (by decide) before).symm
  have hstop : utf8Length (before ++ '<' :: tail) =
      (skipped ++ before.flatMap String.utf8EncodeChar ++
        60 :: (tail.flatMap String.utf8EncodeChar).take n).length := by
    rw [utf8Length_append, ← hfound, List.length_append, List.length_append,
      length_flatMap_encodeChar, List.length_take]
    omega
  have htext : skipped ++ (before ++ '<' :: tail ++ after).flatMap String.utf8EncodeChar =
      skipped ++ before.flatMap String.utf8EncodeChar ++
        60 :: (tail.flatMap String.utf8EncodeChar).take n ++
        (bytes.drop (n + 1) ++ after.flatMap String.utf8EncodeChar) := by
    rw [List.flatMap_append, List.flatMap_append, hbytes, ← hfound]
    simp only [← List.append_assoc]
    rw [List.append_assoc _ (bytes.take _), List.take_append_drop]
  rw [hn, hfound, htext, hstop, hcount, ← List.count_append]
  exact startLine_eq_iff _ _ _

theorem Opening.broken_iff (s : Opening) :
    s.Broken ↔ [10, 60].Sublist (s.markup.flatMap String.utf8EncodeChar) := by
  have hascii : ∀ c ∈ ['\n', '<'], c.toNat < 128 :=
    List.forall_mem_cons.2 ⟨by decide, List.forall_mem_singleton.2 (by decide)⟩
  exact (map_asciiByte_sublist hascii).symm

theorem IsStartTag.head? {tag markup : List Char} (h : IsStartTag tag markup) :
    markup.head? = some '<' := by
  rcases h with rfl | rfl <;> rfl

/-- Whether an element is the one of a start tag of a document, with the line on which the tag
begins as far as reading finds it. -/
structure Opening.Opens (text : String) (s : Opening) (e : Element) : Prop where
  /-- The tag stands in the document. -/
  stands : s.StandsIn (withoutMark text.toList)
  /-- The name of the element is what the name of the tag stands for. -/
  named : ∃ bindings, resolveName bindings true (tagName s.tag) = .ok e.tag
  /-- Without a byte order mark, the line is wrong just if a bracket stands behind a line feed. -/
  line_iff : text.toList.head? ≠ some '\ufeff' → (e.line = some s.line ↔ ¬ s.Broken)
  /-- With the mark it is right in tags that are longer than the mark. -/
  line : 3 < utf8Length s.markup → ¬ s.Broken → e.line = some s.line

theorem withoutMark_eq {cs : List Char} (h : cs.head? ≠ some '\ufeff') : withoutMark cs = cs := by
  unfold withoutMark
  split
  · exact absurd rfl h
  · rfl

theorem Opening.Noted.opens {text : String} {s : Opening} {e : Element}
    (h : s.Noted text.toUTF8.data.toList (e.tag, e.line))
    (hs : s.StandsIn (withoutMark text.toList)) : s.Opens text e := by
  obtain ⟨hname, hline⟩ := h
  obtain ⟨after, hafter⟩ := hs.place
  have hhead := hs.brackets.head?
  have hline (n : Nat) : e.line = some n ↔ startLine (text.toList.flatMap String.utf8EncodeChar)
      (utf8Length (s.before ++ s.markup)) = n := by
    rw [show e.line = _ from hline, toList_data_toUTF8, Option.some.injEq]
  by_cases hmark : text.toList.head? = some '\ufeff'
  · obtain ⟨cs, hcs⟩ := List.head?_eq_some_iff.1 hmark
    rw [hcs, show withoutMark ('\ufeff' :: cs) = cs by rfl] at hafter
    refine ⟨hs, hname, absurd hmark, fun hlong hbroken => (hline _).2 ?_⟩
    have hfound := (startLine_iff hhead [239, 187, 191] hlong s.before after).2 fun hpair =>
      hbroken (s.broken_iff.2 (hpair.trans (List.take_sublist _ _)))
    rw [hafter, show List.count (10 : UInt8) [239, 187, 191] = 0 by decide, Nat.zero_add] at hfound
    rw [hcs]
    exact hfound
  · rw [withoutMark_eq hmark] at hafter
    have hpos : 0 < utf8Length s.markup := by
      obtain ⟨tail, htail⟩ := List.head?_eq_some_iff.1 hhead
      rw [htail, utf8Length]
      exact Nat.add_pos_left (by decide) _
    have hiff : e.line = some s.line ↔ ¬ s.Broken := by
      have hfound := startLine_iff hhead [] hpos s.before after
      rw [hafter, List.nil_append, List.count_nil, Nat.zero_add, List.length_nil, Nat.sub_zero,
        List.take_of_length_le (Nat.le_of_eq (length_flatMap_encodeChar _)), ← s.broken_iff]
        at hfound
      exact (hline _).trans hfound
    exact ⟨hs, hname, fun _ => hiff, fun _ => hiff.2⟩

/-- The elements of a document are those of its start tags, in document order, as far as the root
element reaches. The line of each is the one on which its start tag begins, unless a bracket stands
in the tag behind a line feed or the tag is as short as the byte order mark of the document. -/
theorem lines_of_read {text : String} {root : Element} (h : Element.read text = .ok root) :
    ∃ tags others, openings text = tags ++ others ∧
      List.Forall₂ (Opening.Opens text) tags (listing root) := by
  obtain ⟨tags, others, hopenings, hnoted⟩ := openings_of_read h
  have hstands : ∀ s ∈ tags, s.StandsIn (withoutMark text.toList) := fun s hs =>
    standsIn_of_mem_openings (hopenings ▸ List.mem_append_left _ hs)
  rw [Element.outline, List.forall₂_map_right_iff] at hnoted
  refine ⟨tags, others, hopenings, ?_⟩
  exact ((List.forall₂_and_left _ _).2 ⟨hstands, hnoted⟩).imp fun s e hse => hse.2.opens hse.1

/-- Brackets in comments and values do no harm on the line of the tag. -/
theorem lines_of_read_nested :
    ∃ root, Element.read "<!--\n<-->\n<a b=\"<\n\">\n <c\n/></a>" = .ok root ∧
      (listing root).map (·.line) = [some 3, some 5] ∧
      ∃ tags others, openings "<!--\n<-->\n<a b=\"<\n\">\n <c\n/></a>" = tags ++ others ∧
        List.Forall₂ (Opening.Opens "<!--\n<-->\n<a b=\"<\n\">\n <c\n/></a>") tags
          (listing root) := by
  obtain ⟨root, hread, hlines⟩ := exists_of_toOption_map (f := fun root =>
    (listing root).map (·.line)) (x := Element.read "<!--\n<-->\n<a b=\"<\n\">\n <c\n/></a>")
    (b := [some 3, some 5]) (by decide +kernel)
  exact ⟨root, hread, hlines, lines_of_read hread⟩

/-- Whether the elements of a document have the lines on which their start tags begin. -/
def LinesAtStart (text : String) : Prop :=
  ∀ root, Element.read text = .ok root →
    (listing root).map (·.line) <+: (openings text).map (some ·.line)

theorem not_linesAtStart_of_lines {text : String} {l : List (Option Nat)}
    (hread : (Element.read text).toOption.map (fun root => (listing root).map (·.line)) = some l)
    (h : ¬ l <+: (openings text).map (some ·.line)) : ¬ LinesAtStart text := by
  intro hlines
  obtain ⟨root, hroot, rfl⟩ := exists_of_toOption_map hread
  exact h (hlines root hroot)

/-- A bracket behind a line feed in a value takes the line of the tag, and the byte order mark makes
a short tag end before it begins. -/
theorem not_linesAtStart :
    ¬ LinesAtStart "<a b=\"\n<\"/>" ∧ ¬ LinesAtStart "\ufeff<a>\n<b></b></a>" :=
  ⟨not_linesAtStart_of_lines (l := [some 2]) (by decide +kernel) (by decide +kernel),
    not_linesAtStart_of_lines (l := [some 1, some 1]) (by decide +kernel) (by decide +kernel)⟩

end ContentSchema.Markup
