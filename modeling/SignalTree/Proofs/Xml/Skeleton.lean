import SignalTree.Proofs.Xml.Layout

/-!
# Skeleton — the tags of a document without its texts

A text between tags goes on up to the next `<`, and the value of an attribute up to the next quote.
An escaped text holds neither, so the tags of a document can be told without a look at its texts.

* `Xml.skeleton`: what stands in tags and not between quotes;
* `Markup.tags`: the tags of a markup, with nothing between the quotes;
* `Markup.skeleton_write`, `Markup.filter_write`: the skeleton and the marks of what is written are
  those of the tags;
* `Markup.referenced_write`: each `&` that is written starts a reference.
-/

namespace SignalTree
namespace Xml

/-! ## Scanning -/

/-- A character that opens or closes a tag or the value of an attribute. -/
def isMark (c : Char) : Bool := c = '<' || c = '>' || c = '"'

/-- Where a character of a document stands: between tags, in a tag, or between quotes in one. -/
inductive Place where
  | text
  | tag
  | value

/-- Where the next character stands. -/
def Place.next : Place → Char → Place
  | text, c => if c = '<' then tag else text
  | tag, c => if c = '>' then text else if c = '"' then value else tag
  | value, c => if c = '"' then tag else value

/-- Whether a character belongs to a tag; the quotes do. -/
def Place.keeps : Place → Char → Bool
  | text, c => c = '<'
  | tag, _ => true
  | value, c => c = '"'

/-- The skeleton of what stands from some place on. -/
def skeletonFrom (p : Place) : List Char → List Char
  | [] => []
  | c :: rest => (if p.keeps c then [c] else []) ++ skeletonFrom (p.next c) rest

/-- The tags of a document in order, with nothing between the quotes. -/
def skeleton (cs : List Char) : List Char := skeletonFrom .text cs

theorem skeletonFrom_text {cs : List Char} (h : '<' ∉ cs) (rest : List Char) :
    skeletonFrom .text (cs ++ rest) = skeletonFrom .text rest := by
  induction cs with
  | nil => rfl
  | cons c cs ih =>
    rw [List.mem_cons, not_or] at h
    have hc : c ≠ '<' := Ne.symm h.1
    simp [skeletonFrom, Place.keeps, Place.next, hc, ih h.2]

theorem skeletonFrom_value {cs : List Char} (h : '"' ∉ cs) (rest : List Char) :
    skeletonFrom .value (cs ++ rest) = skeletonFrom .value rest := by
  induction cs with
  | nil => rfl
  | cons c cs ih =>
    rw [List.mem_cons, not_or] at h
    have hc : c ≠ '"' := Ne.symm h.1
    simp [skeletonFrom, Place.keeps, Place.next, hc, ih h.2]

theorem skeletonFrom_tag {cs : List Char} (hclose : '>' ∉ cs) (hquote : '"' ∉ cs)
    (rest : List Char) : skeletonFrom .tag (cs ++ rest) = cs ++ skeletonFrom .tag rest := by
  induction cs with
  | nil => rfl
  | cons c cs ih =>
    rw [List.mem_cons, not_or] at hclose hquote
    have hc : c ≠ '>' := Ne.symm hclose.1
    have hc' : c ≠ '"' := Ne.symm hquote.1
    simp [skeletonFrom, Place.keeps, Place.next, hc, hc', ih hclose.2 hquote.2]

/-! ## Escaped texts -/

/-- An escaped text holds no marks, whatever the text is. -/
theorem not_mark_of_mem_escape {s : String} {d : Char} (hd : d ∈ escape s) : isMark d = false := by
  rcases List.mem_flatMap.1 hd with ⟨c, -, hd⟩
  rcases escapeChar_cases c with ⟨h, -, hlt, hgt, hquot⟩ | ⟨name, h, hname, -⟩
  · rw [h, List.mem_singleton] at hd
    simp [isMark, hd, hlt, hgt, hquot]
  · rw [h] at hd
    rcases List.mem_cons.1 hd with rfl | hd
    · rfl
    · rcases isInert_iff.1 (List.all_eq_true.1 hname d hd) with ⟨-, hlt, hgt, hquot⟩
      simp [isMark, hlt, hgt, hquot]

theorem notMem_escape {s : String} {d : Char} (h : isMark d = true) : d ∉ escape s := by
  intro hd
  rw [not_mark_of_mem_escape hd] at h
  cases h

theorem filter_escape (s : String) : (escape s).filter isMark = [] :=
  List.filter_eq_nil_iff.2 fun _ hd => by simp [not_mark_of_mem_escape hd]

/-- The references to characters, without the `&`. -/
def references : List (List Char) :=
  ["amp;", "lt;", "gt;", "quot;", "apos;"].map String.toList

/-- Each `&` starts a reference. -/
def Referenced (cs : List Char) : Prop :=
  ∀ before rest, cs = before ++ '&' :: rest → ∃ r ∈ references, r <+: rest

theorem Referenced.append {cs ds : List Char} (hcs : Referenced cs) (hds : Referenced ds) :
    Referenced (cs ++ ds) := by
  intro before rest h
  rcases List.append_eq_append_iff.1 h with ⟨middle, hbefore, hrest⟩ | ⟨middle, hbefore, hrest⟩
  · exact hds middle rest hrest
  · cases middle with
    | nil => exact hds [] rest hrest.symm
    | cons d middle =>
      cases hrest
      -- this one stands in the first text, and so does its reference
      rcases hcs before middle hbefore with ⟨r, hr, hprefix⟩
      exact ⟨r, hr, hprefix.trans (List.prefix_append middle ds)⟩

theorem referenced_of_notMem {cs : List Char} (h : '&' ∉ cs) : Referenced cs := by
  intro before rest hcs
  rw [hcs] at h
  exact absurd (by simp) h

theorem Referenced.cons {c : Char} {cs : List Char} (hc : c ≠ '&') (hcs : Referenced cs) :
    Referenced (c :: cs) := by
  have hsingle : '&' ∉ [c] := by simpa using hc.symm
  exact (referenced_of_notMem hsingle).append hcs

theorem referenced_flatMap {α : Type} {f : α → List Char} {l : List α}
    (h : ∀ a ∈ l, Referenced (f a)) : Referenced (l.flatMap f) := by
  induction l with
  | nil => exact referenced_of_notMem (by simp)
  | cons a rest ih =>
    rw [List.flatMap_cons]
    exact (h a (List.mem_cons_self ..)).append (ih fun b hb => h b (List.mem_cons_of_mem _ hb))

theorem referenced_reference {name : List Char} (hname : name ∈ references) :
    Referenced ('&' :: name) := by
  have hamp : ∀ r ∈ references, '&' ∉ r := by decide
  intro before rest h
  cases before with
  | nil =>
    cases h
    exact ⟨name, hname, List.prefix_refl name⟩
  | cons c before =>
    cases h
    exact absurd (by simp) (hamp _ hname)

theorem referenced_escapeChar (c : Char) : Referenced (escapeChar c) := by
  unfold escapeChar
  split
  · exact referenced_reference (by decide)
  · exact referenced_reference (by decide)
  · exact referenced_reference (by decide)
  · exact referenced_reference (by decide)
  · exact referenced_reference (by decide)
  · rename_i hamp _ _ _ _
    exact referenced_of_notMem (by simpa using Ne.symm hamp)

theorem referenced_escape (s : String) : Referenced (escape s) :=
  referenced_flatMap fun c _ => referenced_escapeChar c

/-! ## Tags -/

theorem IsWord.notMem {s : String} (h : IsWord s) {c : Char} (hc : c.isAlpha = false) :
    c ∉ s.toList := fun hmem => ne_of_isAlpha (List.all_eq_true.1 h.2.1 c hmem) hc rfl

namespace Markup

/-- The attributes with nothing between the quotes. -/
def bare (attributes : List (String × String)) : List (String × String) :=
  attributes.map fun a => (a.1, "")

mutual

/-- The tags of an element and of those inside, with nothing between the quotes. -/
def tags : Markup → List Char
  | .leaf name attributes _ => opening name (bare attributes) ++ '>' :: closing name
  | .block name attributes children =>
    opening name (bare attributes) ++ '>' :: (allTags children ++ closing name)
  | .mark name attributes => opening name (bare attributes) ++ ['/', '>']

/-- The tags of some elements. -/
def allTags : List Markup → List Char
  | [] => []
  | m :: rest => m.tags ++ allTags rest

end

mutual

/-- The same elements with empty texts. -/
def erased : Markup → Markup
  | .leaf name attributes _ => .leaf name (bare attributes) ""
  | .block name attributes children => .block name (bare attributes) (erasedAll children)
  | .mark name attributes => .mark name (bare attributes)

/-- Some elements with empty texts. -/
def erasedAll : List Markup → List Markup
  | [] => []
  | m :: rest => m.erased :: erasedAll rest

end

theorem erasedAll_eq_map (ms : List Markup) : erasedAll ms = ms.map erased := by
  induction ms with
  | nil => rfl
  | cons m rest ih => rw [erasedAll, ih, List.map_cons]

theorem bare_bare (attributes : List (String × String)) :
    bare (bare attributes) = bare attributes := by
  simp [bare]

mutual

/-- The tags do not depend on the texts. -/
theorem tags_erased (m : Markup) : m.erased.tags = m.tags := by
  match m with
  | .leaf name attributes text => rw [erased, tags, tags, bare_bare]
  | .block name attributes children =>
    rw [erased, tags, tags, bare_bare, allTags_erasedAll children]
  | .mark name attributes => rw [erased, tags, tags, bare_bare]

theorem allTags_erasedAll (ms : List Markup) : allTags (erasedAll ms) = allTags ms := by
  match ms with
  | [] => rfl
  | m :: ms => rw [erasedAll, allTags, allTags, tags_erased m, allTags_erasedAll ms]

end

/-! ## What is written -/

theorem skeletonFrom_attribute {a : String × String} (h : IsWord a.1) (rest : List Char) :
    skeletonFrom .tag (writeAttribute a ++ rest)
      = writeAttribute (a.1, "") ++ skeletonFrom .tag rest := by
  have hname := fun more => skeletonFrom_tag (h.notMem (c := '>') (by decide))
    (h.notMem (c := '"') (by decide)) more
  have hvalue := fun more => skeletonFrom_value (notMem_escape (s := a.2) (d := '"') rfl) more
  calc skeletonFrom .tag (writeAttribute a ++ rest)
      = ' ' :: skeletonFrom .tag (a.1.toList ++ '=' :: '"' :: (escape a.2 ++ '"' :: rest)) := by
        simp [writeAttribute, skeletonFrom, Place.keeps, Place.next]
    _ = ' ' :: (a.1.toList ++ '=' :: '"' :: skeletonFrom .value (escape a.2 ++ '"' :: rest)) := by
        simp [hname, skeletonFrom, Place.keeps, Place.next]
    _ = ' ' :: (a.1.toList ++ '=' :: '"' :: '"' :: skeletonFrom .tag rest) := by
        simp [hvalue, skeletonFrom, Place.keeps, Place.next]
    _ = writeAttribute (a.1, "") ++ skeletonFrom .tag rest := by
        simp [writeAttribute, escape]

theorem skeletonFrom_attributes {attributes : List (String × String)}
    (h : ∀ a ∈ attributes, IsWord a.1) (rest : List Char) :
    skeletonFrom .tag (attributes.flatMap writeAttribute ++ rest)
      = (bare attributes).flatMap writeAttribute ++ skeletonFrom .tag rest := by
  induction attributes with
  | nil => rfl
  | cons a attributes ih =>
    have hrest := ih fun b hb => h b (List.mem_cons_of_mem _ hb)
    rw [List.flatMap_cons, List.append_assoc, skeletonFrom_attribute (h a (List.mem_cons_self ..)),
      hrest]
    simp [bare]

/-- A tag up to its end. -/
theorem skeletonFrom_opening {name : String} {attributes : List (String × String)}
    (h : ShapedTag name attributes) (rest : List Char) :
    skeletonFrom .text (opening name attributes ++ rest)
      = opening name (bare attributes) ++ skeletonFrom .tag rest := by
  have hname := fun more => skeletonFrom_tag (h.name_word.notMem (c := '>') (by decide))
    (h.name_word.notMem (c := '"') (by decide)) more
  calc skeletonFrom .text (opening name attributes ++ rest)
      = '<' :: skeletonFrom .tag
          (name.toList ++ (attributes.flatMap writeAttribute ++ rest)) := by
        simp [opening, skeletonFrom, Place.keeps, Place.next]
    _ = '<' :: (name.toList ++
          ((bare attributes).flatMap writeAttribute ++ skeletonFrom .tag rest)) := by
        rw [hname, skeletonFrom_attributes h.names_word]
    _ = opening name (bare attributes) ++ skeletonFrom .tag rest := by
        simp [opening]

theorem skeletonFrom_closing {name : String} (h : IsWord name) (rest : List Char) :
    skeletonFrom .text (closing name ++ rest) = closing name ++ skeletonFrom .text rest := by
  have hname := fun more => skeletonFrom_tag (h.notMem (c := '>') (by decide))
    (h.notMem (c := '"') (by decide)) more
  simp [closing, skeletonFrom, Place.keeps, Place.next, hname]

/-- What ends a tag leads back to the text. -/
theorem skeletonFrom_close (rest : List Char) :
    skeletonFrom .tag ('>' :: rest) = '>' :: skeletonFrom .text rest := by
  simp [skeletonFrom, Place.keeps, Place.next]

theorem skeletonFrom_gap (depth : Nat) (rest : List Char) :
    skeletonFrom .text (List.replicate (2 * depth) ' ' ++ rest) = skeletonFrom .text rest :=
  skeletonFrom_text (fun h => absurd (List.eq_of_mem_replicate h) (by decide)) rest

theorem skeletonFrom_feed (rest : List Char) :
    skeletonFrom .text ('\n' :: rest) = skeletonFrom .text rest := by
  simp [skeletonFrom, Place.keeps, Place.next]

mutual

/-- The skeleton of a document consists of the tags of its markup. -/
theorem skeleton_write {m : Markup} (h : m.Shaped) (depth : Nat) (rest : List Char) :
    skeletonFrom .text (m.write depth ++ rest) = m.tags ++ skeletonFrom .text rest := by
  match m with
  | .leaf name attributes text =>
    have htext := fun more => skeletonFrom_text (notMem_escape (s := text) (d := '<') rfl) more
    have hclosing := skeletonFrom_closing h.name_word
    simp only [write, line, tags, List.append_assoc, List.cons_append, List.nil_append,
      skeletonFrom_gap, skeletonFrom_opening h, skeletonFrom_close, htext, hclosing,
      skeletonFrom_feed]
  | .block name attributes children =>
    have hchildren := skeleton_writeAll h.2 (depth + 1)
    have hclosing := skeletonFrom_closing h.1.name_word
    simp only [write, line, tags, List.append_assoc, List.cons_append, List.nil_append,
      skeletonFrom_gap, skeletonFrom_opening h.1, skeletonFrom_close, hchildren, hclosing,
      skeletonFrom_feed]
  | .mark name attributes =>
    have hslash : ∀ more, skeletonFrom .tag ('/' :: more) = '/' :: skeletonFrom .tag more := by
      intro more
      simp [skeletonFrom, Place.keeps, Place.next]
    simp only [write, line, tags, List.append_assoc, List.cons_append, List.nil_append,
      skeletonFrom_gap, skeletonFrom_opening h, hslash, skeletonFrom_close, skeletonFrom_feed]

theorem skeleton_writeAll {ms : List Markup} (h : ShapedAll ms) (depth : Nat) (rest : List Char) :
    skeletonFrom .text (writeAll depth ms ++ rest) = allTags ms ++ skeletonFrom .text rest := by
  match ms with
  | [] => rfl
  | m :: ms =>
    rw [writeAll, allTags, List.append_assoc, skeleton_write h.1, skeleton_writeAll h.2,
      List.append_assoc]

end

/-! ## Marks -/

theorem filter_opening (name : String) (attributes : List (String × String)) :
    (opening name attributes).filter isMark = (opening name (bare attributes)).filter isMark := by
  have hattributes : (attributes.flatMap writeAttribute).filter isMark
      = ((bare attributes).flatMap writeAttribute).filter isMark := by
    induction attributes with
    | nil => rfl
    | cons a rest ih =>
      have hempty : escape "" = [] := rfl
      simp only [bare, List.map_cons, List.flatMap_cons, List.filter_append] at ih ⊢
      rw [ih]
      simp [writeAttribute, List.filter_cons, filter_escape, hempty]
  simp only [opening, List.filter_append, List.filter_cons, hattributes]

theorem filter_line (depth : Nat) (content : List Char) :
    (line depth content).filter isMark = content.filter isMark := by
  have hgap : (List.replicate (2 * depth) ' ').filter isMark = [] :=
    List.filter_eq_nil_iff.2 fun c hc => by
      rw [List.eq_of_mem_replicate hc]
      decide
  have hfeed : isMark '\n' = false := rfl
  simp [line, hgap, hfeed]

mutual

/-- The marks that are written are those of the tags. -/
theorem filter_write (m : Markup) (depth : Nat) :
    (m.write depth).filter isMark = m.tags.filter isMark := by
  match m with
  | .leaf name attributes text =>
    simp [write, tags, filter_line, filter_opening name attributes, List.filter_cons, filter_escape]
  | .block name attributes children =>
    have hchildren := filter_writeAll children (depth + 1)
    have hclose : isMark '>' = true := rfl
    simp [write, tags, filter_line, filter_opening name attributes, hclose, hchildren]
  | .mark name attributes =>
    simp [write, tags, filter_line, filter_opening name attributes]

theorem filter_writeAll (ms : List Markup) (depth : Nat) :
    (writeAll depth ms).filter isMark = (allTags ms).filter isMark := by
  match ms with
  | [] => rfl
  | m :: ms =>
    rw [writeAll, allTags, List.filter_append, List.filter_append, filter_write m,
      filter_writeAll ms]

end

/-! ## References -/

theorem referenced_word {s : String} (h : IsWord s) : Referenced s.toList :=
  referenced_of_notMem (h.notMem (by decide))

theorem referenced_opening {name : String} {attributes : List (String × String)}
    (h : ShapedTag name attributes) : Referenced (opening name attributes) := by
  refine .cons (by decide) ((referenced_word h.name_word).append ?_)
  refine referenced_flatMap fun a ha => ?_
  refine .cons (by decide) ((referenced_word (h.names_word a ha)).append ?_)
  refine .cons (by decide) (.cons (by decide) ?_)
  exact (referenced_escape a.2).append (referenced_of_notMem (by decide))

theorem referenced_closing {name : String} (h : IsWord name) : Referenced (closing name) :=
  .cons (by decide) (.cons (by decide) ((referenced_word h).append
    (referenced_of_notMem (by decide))))

theorem referenced_line {content : List Char} (h : Referenced content) (depth : Nat) :
    Referenced (line depth content) := by
  have hgap : '&' ∉ List.replicate (2 * depth) ' ' :=
    fun hmem => absurd (List.eq_of_mem_replicate hmem) (by decide)
  exact ((referenced_of_notMem hgap).append h).append (referenced_of_notMem (by decide))

mutual

/-- Each `&` that is written starts a reference. -/
theorem referenced_write {m : Markup} (h : m.Shaped) (depth : Nat) :
    Referenced (m.write depth) := by
  match m with
  | .leaf name attributes text =>
    refine referenced_line ((referenced_opening h).append (.cons (by decide) ?_)) depth
    exact (referenced_escape text).append (referenced_closing h.name_word)
  | .block name attributes children =>
    have htag : Referenced (opening name attributes ++ ['>']) :=
      (referenced_opening h.1).append (referenced_of_notMem (by decide))
    exact ((referenced_line htag depth).append (referenced_writeAll h.2 (depth + 1))).append
      (referenced_line (referenced_closing h.1.name_word) depth)
  | .mark name attributes =>
    exact referenced_line ((referenced_opening h).append (referenced_of_notMem (by decide))) depth

theorem referenced_writeAll {ms : List Markup} (h : ShapedAll ms) (depth : Nat) :
    Referenced (writeAll depth ms) := by
  match ms with
  | [] => exact referenced_of_notMem (by simp [writeAll])
  | m :: ms => exact (referenced_write h.1 depth).append (referenced_writeAll h.2 depth)

end

end Markup
end Xml
end SignalTree
