import SignalTree.Proofs.Xml.Layout

/-!
# Legal — documents hold legal characters only

The reader looks at every character of a document, whether it is in a name, a text, an attribute, a
remark or the declaration, and it takes legal characters only.  So markup is read if and only if all
texts in it are legal.

* `Xml.Takes`: what a reader leaves, after legal characters;
* `takes_element`, `takes_content`: elements and their content, by induction on the fuel;
* `legal_of_read`: a document that is read is legal;
* `read_write_iff`: the markup that is read.
-/

namespace SignalTree
namespace Xml

/-- Some legal characters stand before the rest. -/
def Takes (cs rest : List Char) : Prop :=
  ∃ front, cs = front ++ rest ∧ ∀ c ∈ front, isChar c = true

namespace Takes

variable {cs ds rest : List Char}

theorem refl (cs : List Char) : Takes cs cs := ⟨[], rfl, by simp⟩

theorem trans (h : Takes cs ds) (h' : Takes ds rest) : Takes cs rest := by
  rcases h with ⟨front, rfl, hfront⟩
  rcases h' with ⟨more, rfl, hmore⟩
  exact ⟨front ++ more, by simp, List.forall_mem_append.2 ⟨hfront, hmore⟩⟩

theorem of_append (front : List Char) (hfront : ∀ c ∈ front, isChar c = true) :
    Takes (front ++ rest) rest := ⟨front, rfl, hfront⟩

/-- A mark is taken whole. -/
theorem of_mark (mark : List Char) (hmark : mark.all isChar = true) : Takes (mark ++ rest) rest :=
  of_append mark (List.all_eq_true.1 hmark)

theorem cons {c : Char} (hc : isChar c = true) (h : Takes cs rest) : Takes (c :: cs) rest :=
  (of_append [c] (by simpa using hc)).trans h

/-- A run of legal characters is taken. -/
theorem dropWhile {p : Char → Bool} (hp : ∀ c, p c = true → isChar c = true) (cs : List Char) :
    Takes cs (cs.dropWhile p) := by
  refine ⟨cs.takeWhile p, List.takeWhile_append_dropWhile.symm, ?_⟩
  exact fun c hc => hp c (List.mem_takeWhile_imp hc)

end Takes

/-! ## Characters -/

theorem isChar_of_isSpace {c : Char} (h : isSpace c = true) : isChar c = true := by
  unfold isChar
  split
  · exact h
  · rename_i hlow
    simp only [isSpace, Bool.or_eq_true, decide_eq_true_eq] at h
    rcases h with ((rfl | rfl) | rfl) | rfl <;> simp at hlow ⊢

theorem isChar_of_inRanges {ranges : List (Nat × Nat)} {c : Char}
    (hranges : ∀ r ∈ ranges, 0x20 ≤ r.1 ∧ (r.2 < 0xFFFE ∨ 0xFFFF < r.1))
    (h : inRanges ranges c.toNat = true) : isChar c = true := by
  rcases List.any_eq_true.1 h with ⟨r, hr, hbounds⟩
  simp only [Bool.and_eq_true, decide_eq_true_eq] at hbounds
  have hlow : ¬ c.toNat < 0x20 := by
    have := (hranges r hr).1
    omega
  simp only [isChar, if_neg hlow, Bool.and_eq_true, bne_iff_ne]
  rcases (hranges r hr).2 with hupper | hlower
  · constructor <;> omega
  · constructor <;> omega

theorem isChar_of_isAlpha {c : Char} (h : c.isAlpha = true) : isChar c = true := by
  have hbounds : (65 ≤ c.toNat ∧ c.toNat ≤ 90) ∨ (97 ≤ c.toNat ∧ c.toNat ≤ 122) := by
    rcases (Bool.or_eq_true c.isUpper c.isLower).mp h with hupper | hlower
    · have hrange := of_decide_eq_true hupper
      exact Or.inl ⟨UInt32.le_iff_toNat_le.1 hrange.1, UInt32.le_iff_toNat_le.1 hrange.2⟩
    · have hrange := (Bool.and_eq_true _ _).mp hlower
      exact Or.inr ⟨UInt32.le_iff_toNat_le.1 (of_decide_eq_true hrange.1),
        UInt32.le_iff_toNat_le.1 (of_decide_eq_true hrange.2)⟩
  have hgraphic : Text.IsGraphic c := ⟨by omega, by omega⟩
  exact (attribute_of_graphic hgraphic).1

theorem isChar_of_isName {c : Char} (h : isName c = true) : isChar c = true := by
  simp only [isName, isNameStart, Bool.or_eq_true, decide_eq_true_eq] at h
  rcases h with ((((((halpha | rfl) | rfl) | hstart) | hdigit) | rfl) | rfl) | hinner
  · exact isChar_of_isAlpha halpha
  · decide
  · decide
  · exact isChar_of_inRanges (by decide) hstart
  · exact (attribute_of_graphic (Text.isGraphic_of_isDigit hdigit)).1
  · decide
  · decide
  · exact isChar_of_inRanges (by decide) hinner

/-! ## Parts of tags -/

theorem takes_skip (cs : List Char) : Takes cs (skip cs) :=
  Takes.dropWhile (fun _ => isChar_of_isSpace) cs

theorem takes_name {cs name rest : List Char} (h : readName cs = some (name, rest)) :
    Takes cs rest := by
  unfold readName at h
  extract_lets word at h
  split at h
  · rw [← (Prod.mk.inj (Option.some.inj h)).2]
    exact .dropWhile (fun _ => isChar_of_isName) cs
  · cases h

theorem takes_qName {cs rest : List Char} {name : QName} (h : readQName cs = some (name, rest)) :
    Takes cs rest := by
  have hrest : rest = cs.dropWhile isName := by
    unfold readQName at h
    extract_lets word after first at h
    split at h
    · split at h
      · exact (Prod.mk.inj (Option.some.inj h)).2.symm
      · cases h
    · split at h
      · cases h
      · split at h
        · exact (Prod.mk.inj (Option.some.inj h)).2.symm
        · cases h
  rw [hrest]
  exact .dropWhile (fun _ => isChar_of_isName) cs

theorem takes_rawAttribute {cs raw rest : List Char} {name : QName}
    (h : readRawAttribute cs = some (name, raw, rest)) : Takes cs rest := by
  rcases Option.bind_eq_some_iff.1 h with ⟨⟨name', more⟩, hname, h⟩
  refine (takes_qName hname).trans ((takes_skip more).trans ?_)
  dsimp only at h
  split at h
  · rename_i more hskip
    rw [hskip]
    refine .cons (by decide) ((takes_skip more).trans ?_)
    split at h
    · cases h
    · rename_i quote value hquote
      rw [hquote]
      split at h
      · cases h
      · rename_i hmark
        have hlegal : isChar quote = true := by
          by_cases hq : quote = '"'
          · rw [hq]
            decide
          · have hapostrophe : quote = '\'' := by simpa [hq] using hmark
            rw [hapostrophe]
            decide
        split at h
        · cases h
        · rename_i hbody
          have hvalue := by simpa only [Bool.not_eq_true', Bool.not_eq_false, List.all_eq_true]
            using hbody
          split at h
          · rename_i last rest' hafter
            split at h
            · -- the value ends with the quote that it starts with
              rename_i hlast
              simp only [Option.some.injEq, Prod.mk.injEq] at h
              rw [hlast, h.2.2] at hafter
              have hwhole := List.takeWhile_append_dropWhile (p := fun c => c ≠ quote && c ≠ '<')
                (l := value)
              rw [hafter] at hwhole
              rw [← hwhole]
              exact .cons hlegal ((Takes.of_append _ hvalue).trans (.cons hlegal (.refl rest)))
            · cases h
          · cases h
  · cases h

theorem takes_attribute {cs rest : List Char} {a : Attribute}
    (h : readAttribute cs = some (a, rest)) : Takes cs rest := by
  rcases Option.bind_eq_some_iff.1 h with ⟨⟨name, raw, more⟩, hraw, h⟩
  rcases Option.bind_eq_some_iff.1 h with ⟨value, _, h⟩
  rw [← (Prod.mk.inj (Option.some.inj h)).2]
  exact takes_rawAttribute hraw

theorem takes_attributes {fuel : Nat} {cs rest : List Char} {as : List Attribute} {empty : Bool}
    (h : readAttributes fuel cs = some (as, empty, rest)) : Takes cs rest := by
  induction fuel generalizing cs as empty with
  | zero => cases h
  | succ fuel ih =>
    refine (takes_skip cs).trans ?_
    unfold readAttributes at h
    split at h
    · rename_i more hskip
      simp only [Option.some.injEq, Prod.mk.injEq] at h
      rw [hskip, h.2.2]
      exact .cons (by decide) (.cons (by decide) (.refl rest))
    · rename_i more hskip
      simp only [Option.some.injEq, Prod.mk.injEq] at h
      rw [hskip, h.2.2]
      exact .cons (by decide) (.refl rest)
    · split at h
      · cases h
      · rcases Option.bind_eq_some_iff.1 h with ⟨⟨a, more⟩, hattribute, h⟩
        rcases Option.bind_eq_some_iff.1 h with ⟨⟨others, empty', last⟩, hothers, h⟩
        simp only [Option.some.injEq, Prod.mk.injEq] at h
        rw [h.2.2] at hothers
        exact (takes_attribute hattribute).trans (ih hothers)

/-! ## Remarks and sections -/

theorem eq_append_of_after? {start cs rest : List Char} (h : after? start cs = some rest) :
    cs = start ++ rest := by
  unfold after? at h
  split at h
  · rename_i hprefix
    obtain ⟨more, rfl⟩ := List.isPrefixOf_iff_prefix.1 hprefix
    rw [← Option.some.inj h, List.drop_left]
  · cases h

theorem eq_append_of_splitAt? {mark cs body rest : List Char}
    (h : splitAt? mark cs = some (body, rest)) : cs = body ++ (mark ++ rest) := by
  induction cs generalizing body with
  | nil => cases h
  | cons c cs ih =>
    unfold splitAt? at h
    split at h
    · rename_i more hafter
      simp only [Option.some.injEq, Prod.mk.injEq] at h
      rcases h with ⟨rfl, rfl⟩
      have happend : c :: cs = mark ++ more := eq_append_of_after? hafter
      exact happend
    · rcases Option.map_eq_some_iff.1 h with ⟨⟨before, more⟩, hsplit, h⟩
      simp only [Prod.mk.injEq] at h
      rcases h with ⟨rfl, rfl⟩
      rw [ih hsplit, List.cons_append]

/-- Legal characters up to a mark of legal characters are taken with the mark. -/
theorem takes_splitAt? {mark cs body rest : List Char} (h : splitAt? mark cs = some (body, rest))
    (hmark : mark.all isChar = true) (hbody : body.all isChar = true) : Takes cs rest := by
  rw [eq_append_of_splitAt? h]
  exact (Takes.of_mark body hbody).trans (.of_mark mark hmark)

theorem takes_comment {cs rest : List Char} (h : readComment cs = some rest) : Takes cs rest := by
  rcases Option.bind_eq_some_iff.1 h with ⟨⟨body, more⟩, hsplit, h⟩
  dsimp only [bind, Option.bind] at h
  split at h
  · cases h
  · rename_i hbody
    simp only [Bool.or_eq_true, not_or, Bool.not_eq_true', Bool.not_eq_false] at hbody
    rw [← Option.some.inj h]
    exact takes_splitAt? hsplit (by decide) hbody.1.1

theorem takes_instruction {cs rest : List Char} (h : readInstruction cs = some rest) :
    Takes cs rest := by
  rcases Option.bind_eq_some_iff.1 h with ⟨⟨name, more⟩, hname, h⟩
  rcases Option.bind_eq_some_iff.1 h with ⟨⟨body, last⟩, hsplit, h⟩
  dsimp only at h
  split at h
  · rename_i hbody
    rw [← Option.some.inj h]
    exact (takes_name hname).trans ((takes_skip more).trans
      (takes_splitAt? hsplit (by decide) hbody))
  · cases h

theorem takes_remark {cs rest : List Char} (h : readRemark cs = some (some rest)) :
    Takes cs rest := by
  unfold readRemark at h
  split at h
  · rcases Option.map_eq_some_iff.1 h with ⟨more, hcomment, h⟩
    rw [← Option.some.inj h]
    exact .cons (by decide) (.cons (by decide) (.cons (by decide) (.cons (by decide)
      (takes_comment hcomment))))
  · split at h
    · cases h
    · rcases Option.map_eq_some_iff.1 h with ⟨more, hinstruction, h⟩
      rw [← Option.some.inj h]
      exact .cons (by decide) (.cons (by decide) (takes_instruction hinstruction))
  · cases h

/-! ## Elements -/

/-- The section of a literal text is taken with its ends. -/
theorem takes_literal {cs body rest : List Char} (h : splitAt? "]]>".toList cs = some (body, rest))
    (hbody : body.all isChar = true) :
    Takes ('<' :: '!' :: '[' :: 'C' :: 'D' :: 'A' :: 'T' :: 'A' :: '[' :: cs) rest :=
  (Takes.of_mark "<![CDATA[".toList (by decide)).trans
    (takes_splitAt? h (by decide) hbody)

mutual

theorem takes_element {fuel : Nat} {scope : Scope} {cs rest : List Char} {n : Node}
    (h : readElement fuel scope cs = some (n, rest)) : Takes cs rest := by
  match fuel with
  | 0 => cases h
  | fuel + 1 =>
    rw [readElement] at h
    rcases Option.bind_eq_some_iff.1 h with ⟨⟨name, more⟩, hname, h⟩
    refine (takes_qName hname).trans ?_
    dsimp only at h
    split at h
    · cases h
    · rcases Option.bind_eq_some_iff.1 h with ⟨⟨attributes, empty, more⟩, hattributes, h⟩
      refine (takes_attributes hattributes).trans ?_
      rcases Option.bind_eq_some_iff.1 h with ⟨own, _, h⟩
      rcases Option.bind_eq_some_iff.1 h with ⟨plain, _, h⟩
      dsimp only at h
      split at h
      · cases h
      · split at h
        · rw [(Prod.mk.inj (Option.some.inj h)).2]
          exact .refl rest
        · rcases Option.bind_eq_some_iff.1 h with ⟨⟨children, closing, last⟩, hcontent, h⟩
          dsimp only at h
          split at h
          · rw [← (Prod.mk.inj (Option.some.inj h)).2]
            exact takes_content hcontent
          · cases h

theorem takes_content {fuel : Nat} {scope : Scope} {cs rest : List Char} {ns : List Node}
    {closing : QName} (h : readContent fuel scope cs = some (ns, closing, rest)) :
    Takes cs rest := by
  match fuel with
  | 0 => cases h
  | fuel + 1 =>
    -- after a part of the content there is more of it
    have hmore : ∀ {more ns' closing' rest'}, readContent fuel scope more
        = some (ns', closing', rest') → rest' = rest → Takes more rest :=
      fun hread hrest => hrest ▸ takes_content hread
    unfold readContent at h
    split at h
    · cases h
    · -- a closing tag
      rcases Option.bind_eq_some_iff.1 h with ⟨⟨name, more⟩, hname, h⟩
      refine .cons (by decide) (.cons (by decide) ((takes_qName hname).trans
        ((takes_skip more).trans ?_)))
      dsimp only at h
      split at h
      · rename_i hskip
        simp only [Option.some.injEq, Prod.mk.injEq] at h
        rw [hskip, h.2.2]
        exact .cons (by decide) (.refl rest)
      · cases h
    · -- a section of literal text
      rcases Option.bind_eq_some_iff.1 h with ⟨⟨body, more⟩, hsplit, h⟩
      dsimp only at h
      split at h
      · cases h
      · rename_i hbody
        rcases Option.bind_eq_some_iff.1 h with ⟨⟨nodes, closing', last⟩, hcontent, h⟩
        simp only [Option.some.injEq, Prod.mk.injEq] at h
        exact (takes_literal hsplit (by simpa using hbody)).trans (hmore hcontent h.2.2)
    · rcases Option.bind_eq_some_iff.1 h with ⟨remark, hremark, h⟩
      cases remark with
      | some more =>
        rcases Option.bind_eq_some_iff.1 h with ⟨⟨nodes, closing', last⟩, hcontent, h⟩
        simp only [Option.some.injEq, Prod.mk.injEq] at h
        exact (takes_remark hremark).trans (hmore hcontent h.2.2)
      | none =>
        rcases Option.bind_eq_some_iff.1 h with ⟨⟨node, more⟩, helement, h⟩
        rcases Option.bind_eq_some_iff.1 h with ⟨⟨nodes, closing', last⟩, hcontent, h⟩
        simp only [Option.some.injEq, Prod.mk.injEq] at h
        exact .cons (by decide) ((takes_element helement).trans (hmore hcontent h.2.2))
    · -- a text up to the next bracket
      dsimp only at h
      split at h
      · cases h
      · rename_i hbody
        rcases Option.bind_eq_some_iff.1 h with ⟨s, _, h⟩
        rcases Option.bind_eq_some_iff.1 h with ⟨⟨nodes, closing', last⟩, hcontent, h⟩
        simp only [Option.some.injEq, Prod.mk.injEq] at h
        simp only [Bool.or_eq_true, not_or, Bool.not_eq_true', Bool.not_eq_false] at hbody
        refine Takes.trans ⟨_, List.takeWhile_append_dropWhile.symm, ?_⟩ (hmore hcontent h.2.2)
        exact List.all_eq_true.1 hbody.1

end

/-! ## Documents -/

theorem takes_declaration {cs rest : List Char} (h : readDeclaration cs = some rest) :
    Takes cs rest := by
  unfold readDeclaration at h
  extract_lets gap optional ending at h
  have hgap : ∀ {cs rest}, gap cs = some rest → Takes cs rest := by
    intro cs rest h
    dsimp only [gap] at h
    split at h
    · rw [← Option.some.inj h]
      exact .refl _
    · rw [← Option.some.inj h]
      exact .refl _
    · split at h
      · rename_i hspace
        rw [← Option.some.inj h]
        exact .cons (isChar_of_isSpace hspace) (takes_skip _)
      · cases h
  have hoptional : ∀ {name cs rest found}, optional name cs = some (rest, found) →
      Takes cs rest := by
    intro name cs rest found h
    dsimp only [optional] at h
    split at h
    · rcases Option.map_eq_some_iff.1 h with ⟨⟨word, raw, more⟩, hraw, h⟩
      rw [← (Prod.mk.inj h).1]
      exact takes_rawAttribute hraw
    · rw [← (Prod.mk.inj (Option.some.inj h)).1]
      exact .refl _
  have hending : ∀ {cs rest}, ending cs = some rest → Takes cs rest := by
    intro cs rest h
    rcases Option.bind_eq_some_iff.1 h with ⟨⟨more, alone⟩, hmore, h⟩
    refine (hoptional hmore).trans ((takes_skip more).trans ?_)
    rw [eq_append_of_after? h]
    exact .of_mark _ (by decide)
  rcases Option.bind_eq_some_iff.1 h with ⟨first, hfirst, h⟩
  rcases Option.bind_eq_some_iff.1 h with ⟨⟨second, versioned⟩, hsecond, h⟩
  refine (hgap hfirst).trans ((hoptional hsecond).trans ?_)
  dsimp only at h
  split at h
  · cases h
  · rcases Option.bind_eq_some_iff.1 h with ⟨third, hthird, h⟩
    rcases Option.bind_eq_some_iff.1 h with ⟨⟨fourth, encoded⟩, hfourth, h⟩
    refine (hgap hthird).trans ((hoptional hfourth).trans ?_)
    dsimp only at h
    split at h
    · rcases Option.bind_eq_some_iff.1 h with ⟨fifth, hfifth, h⟩
      exact (hgap hfifth).trans (hending h)
    · exact hending h

theorem takes_remarks {fuel : Nat} {cs rest : List Char} (h : skipRemarks fuel cs = some rest) :
    Takes cs rest := by
  induction fuel generalizing cs with
  | zero => cases h
  | succ fuel ih =>
    refine (takes_skip cs).trans ?_
    unfold skipRemarks at h
    rcases Option.bind_eq_some_iff.1 h with ⟨remark, hremark, h⟩
    cases remark with
    | some more => exact (takes_remark hremark).trans (ih h)
    | none =>
      rw [Option.some.inj h]
      exact .refl rest

/-- A document that is read is legal. -/
theorem legal_of_read {cs : List Char} {n : Node} (h : read cs = some n) :
    ∀ c ∈ cs, isChar c = true := by
  suffices htakes : Takes cs [] by
    rcases htakes with ⟨front, rfl, hfront⟩
    simpa using hfront
  unfold read at h
  extract_lets fuel start ending at h
  have hstart : Takes cs start := by
    dsimp only [start]
    split
    · exact .cons (by decide) (.refl _)
    · exact .refl _
  have hending : ∀ {cs}, ending cs = some n → Takes cs [] := by
    intro cs h
    rcases Option.bind_eq_some_iff.1 h with ⟨more, hmore, h⟩
    refine (takes_remarks hmore).trans ?_
    dsimp only at h
    split at h
    · rename_i more
      rcases Option.bind_eq_some_iff.1 h with ⟨⟨root, last⟩, hroot, h⟩
      rcases Option.bind_eq_some_iff.1 h with ⟨rest, hrest, h⟩
      refine .cons (by decide) ((takes_element hroot).trans ?_)
      split at h
      · rename_i hempty
        rw [← List.isEmpty_iff.1 hempty]
        exact takes_remarks hrest
      · cases h
    · cases h
  refine hstart.trans ?_
  split at h
  · rename_i more hafter
    rcases Option.bind_eq_some_iff.1 h with ⟨last, hdeclaration, h⟩
    rw [eq_append_of_after? hafter]
    have hopening : Takes ("<?xml ".toList ++ more) (' ' :: more) :=
      .of_mark "<?xml".toList (by decide)
    exact hopening.trans ((takes_declaration hdeclaration).trans (hending h))
  · exact hending h

/-! ## Markup -/

/-- Escaping hides no character that is not legal. -/
theorem isLegal_of_escape {s : String} (h : ∀ c ∈ escape s, isChar c = true) : IsLegal s := by
  intro c hc
  rcases escapeChar_cases c with ⟨hself, -⟩ | ⟨name, hname, -, hread⟩
  · refine h c (List.mem_flatMap.2 ⟨c, hc, ?_⟩)
    simp [hself]
  · -- the characters that are written as references are legal
    have hspecial : c = '&' ∨ c = '<' ∨ c = '>' ∨ c = '"' ∨ c = '\'' := by
      by_contra hother
      simp only [not_or] at hother
      have hself : escapeChar c = [c] := by
        unfold escapeChar
        split <;> simp_all
      rw [hself] at hname
      exact hother.1 (List.cons.inj hname).1
    rcases hspecial with rfl | rfl | rfl | rfl | rfl <;> decide

namespace Markup

theorem mem_attributes {attributes : List (String × String)} {s : String} {c : Char}
    (hs : s ∈ attributes.map (·.2)) (hc : c ∈ escape s) :
    c ∈ attributes.flatMap writeAttribute := by
  rcases List.mem_map.1 hs with ⟨a, ha, rfl⟩
  refine List.mem_flatMap.2 ⟨a, ha, ?_⟩
  simp [writeAttribute, hc]

mutual

/-- Every text is written, escaped. -/
theorem mem_write {m : Markup} {s : String} {c : Char} (hs : s ∈ m.texts) (hc : c ∈ escape s)
    (depth : Nat) : c ∈ m.write depth := by
  match m with
  | .leaf name attributes text =>
    rcases List.mem_append.1 hs with hvalue | htext
    · simp [write, line, opening, mem_attributes hvalue hc]
    · rw [List.mem_singleton.1 htext] at hc
      simp [write, line, hc]
  | .block name attributes children =>
    rcases List.mem_append.1 hs with hvalue | hchild
    · simp [write, line, opening, mem_attributes hvalue hc]
    · simp [write, mem_writeAll hchild hc (depth + 1)]
  | .mark name attributes =>
    simp [write, line, opening, mem_attributes hs hc]

theorem mem_writeAll {ms : List Markup} {s : String} {c : Char} (hs : s ∈ allTexts ms)
    (hc : c ∈ escape s) (depth : Nat) : c ∈ writeAll depth ms := by
  match ms with
  | [] => simp [allTexts] at hs
  | m :: rest =>
    rw [writeAll, List.mem_append]
    rcases List.mem_append.1 hs with hfirst | hrest
    · exact Or.inl (mem_write hfirst hc depth)
    · exact Or.inr (mem_writeAll hrest hc depth)

end

end Markup

/-- Markup is read if and only if all texts in it are legal. -/
theorem read_write_iff {m : Markup} (hm : m.Shaped) :
    (∃ n, read ("<?xml version=\"1.0\" encoding=\"UTF-8\"?>\n".toList ++ m.write 0) = some n) ↔
      ∀ s ∈ m.texts, IsLegal s := by
  constructor
  · rintro ⟨n, hn⟩ s hs
    refine isLegal_of_escape fun c hc => ?_
    exact legal_of_read hn c (List.mem_append_right _ (Markup.mem_write hs hc 0))
  · exact fun hlegal => ⟨_, read_write_arrived hm hlegal⟩

end Xml
end SignalTree
