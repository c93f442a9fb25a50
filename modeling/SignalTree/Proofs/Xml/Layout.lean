import SignalTree.Proofs.Xml.Tag

/-!
# Layout — laid-out documents are read back

The reader sees the line ends and the indentation between the elements of a block as texts.  What
it reads is fixed by the markup and its depth (`Markup.node`), with all texts as they arrive.

* `Markup.Shaped`, `Markup.texts`: words as names, and the texts that are written;
* `Markup.arrived`: the markup as it arrives;
* `Markup.Clean`: words as names, and texts of which nothing is lost;
* `Markup.readElement_body`: an element, with its content;
* `Xml.read_write_arrived`, `Xml.read_write`: a whole document.
-/

namespace SignalTree
namespace Xml
namespace Markup

/-! ## What is read -/

/-- The end of a line and the indentation of the next. -/
def gap (depth : Nat) : List Char := '\n' :: List.replicate (2 * depth) ' '

mutual

/-- The element that is read from a markup. -/
def node (depth : Nat) : Markup → Node
  | .leaf name attributes text =>
    .element name attributes (if text = "" then [] else [.text text])
  | .block name attributes children => .element name attributes (content depth children)
  | .mark name attributes => .element name attributes []

/-- The content of a block: its elements, with the gaps before, between and after them. -/
def content (depth : Nat) : List Markup → List Node
  | [] => [.text (String.ofList (gap depth))]
  | m :: rest =>
    .text (String.ofList (gap (depth + 1))) :: node (depth + 1) m :: content depth rest

end

/-- The name of an element. -/
def name : Markup → String
  | .leaf name _ _ => name
  | .block name _ _ => name
  | .mark name _ => name

theorem isNamed_node (depth : Nat) (m : Markup) (name : String) :
    (m.node depth).isNamed name = (m.name == name) := by
  cases m <;> rfl

mutual

/-- Words as names, and texts of which nothing is lost, at every depth. -/
def Clean : Markup → Prop
  | .leaf name attributes text => CleanTag name attributes ∧ IsLine text
  | .block name attributes children => CleanTag name attributes ∧ CleanAll children
  | .mark name attributes => CleanTag name attributes

/-- `Clean` for some elements. -/
def CleanAll : List Markup → Prop
  | [] => True
  | m :: rest => m.Clean ∧ CleanAll rest

end

mutual

/-- Words as names, none of them twice in a tag, at every depth. -/
def Shaped : Markup → Prop
  | .leaf name attributes _ => ShapedTag name attributes
  | .block name attributes children => ShapedTag name attributes ∧ ShapedAll children
  | .mark name attributes => ShapedTag name attributes

/-- `Shaped` for some elements. -/
def ShapedAll : List Markup → Prop
  | [] => True
  | m :: rest => m.Shaped ∧ ShapedAll rest

end

mutual

/-- The texts that are written: the values of attributes, and what stands in leaves. -/
def texts : Markup → List String
  | .leaf _ attributes text => attributes.map (·.2) ++ [text]
  | .block _ attributes children => attributes.map (·.2) ++ allTexts children
  | .mark _ attributes => attributes.map (·.2)

/-- The texts of some elements. -/
def allTexts : List Markup → List String
  | [] => []
  | m :: rest => m.texts ++ allTexts rest

end

mutual

/-- The elements with their texts as they arrive. -/
def arrived : Markup → Markup
  | .leaf name attributes text => .leaf name (arrivedAttributes attributes) (contentText text)
  | .block name attributes children =>
    .block name (arrivedAttributes attributes) (arrivedAll children)
  | .mark name attributes => .mark name (arrivedAttributes attributes)

/-- Some elements as they arrive. -/
def arrivedAll : List Markup → List Markup
  | [] => []
  | m :: rest => m.arrived :: arrivedAll rest

end

theorem arrivedAll_eq_map (ms : List Markup) : arrivedAll ms = ms.map arrived := by
  induction ms with
  | nil => rfl
  | cons m rest ih => rw [arrivedAll, ih, List.map_cons]

theorem name_arrived (m : Markup) : m.arrived.name = m.name := by
  cases m <;> rfl

mutual

theorem Clean.shaped {m : Markup} (h : m.Clean) : m.Shaped := by
  match m with
  | .leaf name attributes text => exact h.1.shaped
  | .block name attributes children => exact ⟨h.1.shaped, CleanAll.shapedAll h.2⟩
  | .mark name attributes => exact CleanTag.shaped h

theorem CleanAll.shapedAll {ms : List Markup} (h : CleanAll ms) : ShapedAll ms := by
  match ms with
  | [] => trivial
  | m :: rest => exact ⟨Clean.shaped h.1, CleanAll.shapedAll h.2⟩

end

theorem legal_values {name : String} {attributes : List (String × String)}
    (h : CleanTag name attributes) : ∀ s ∈ attributes.map (·.2), IsLegal s := by
  intro s hs
  rcases List.mem_map.1 hs with ⟨a, ha, rfl⟩
  exact (h.values_kept a ha).isLegal

mutual

theorem Clean.legal {m : Markup} (h : m.Clean) : ∀ s ∈ m.texts, IsLegal s := by
  match m with
  | .leaf name attributes text =>
    refine List.forall_mem_append.2 ⟨legal_values h.1, ?_⟩
    exact List.forall_mem_singleton.2 h.2.isLegal
  | .block name attributes children =>
    exact List.forall_mem_append.2 ⟨legal_values h.1, CleanAll.legal h.2⟩
  | .mark name attributes => exact legal_values h

theorem CleanAll.legal {ms : List Markup} (h : CleanAll ms) : ∀ s ∈ allTexts ms, IsLegal s := by
  match ms with
  | [] => simp [allTexts]
  | m :: rest => exact List.forall_mem_append.2 ⟨Clean.legal h.1, CleanAll.legal h.2⟩

end

mutual

/-- Nothing is lost of clean markup. -/
theorem Clean.arrived_eq {m : Markup} (h : m.Clean) : m.arrived = m := by
  match m with
  | .leaf name attributes text => rw [arrived, h.1.arrived_eq, contentText_of_isLine h.2]
  | .block name attributes children =>
    rw [arrived, h.1.arrived_eq, CleanAll.arrivedAll_eq h.2]
  | .mark name attributes => rw [arrived, CleanTag.arrived_eq h]

theorem CleanAll.arrivedAll_eq {ms : List Markup} (h : CleanAll ms) : arrivedAll ms = ms := by
  match ms with
  | [] => rfl
  | m :: rest => rw [arrivedAll, Clean.arrived_eq h.1, CleanAll.arrivedAll_eq h.2]

end

theorem cleanAll_of_forall {ms : List Markup} (h : ∀ m ∈ ms, m.Clean) : CleanAll ms := by
  induction ms with
  | nil => trivial
  | cons m rest ih =>
    exact ⟨h m (List.mem_cons_self ..), ih fun n hn => h n (List.mem_cons_of_mem _ hn)⟩

theorem cleanAll_append {ms ns : List Markup} (hms : CleanAll ms) (hns : CleanAll ns) :
    CleanAll (ms ++ ns) := by
  induction ms with
  | nil => exact hns
  | cons m rest ih => exact ⟨hms.1, ih hms.2⟩

/-- A search that passes over texts finds the elements of a block. -/
theorem filter_content {p : Node → Bool} (hp : ∀ s, p (.text s) = false) (depth : Nat)
    (ms : List Markup) :
    (content depth ms).filter p = (ms.map (node (depth + 1))).filter p := by
  induction ms with
  | nil => simp [content, hp]
  | cons m rest ih => simp [content, hp, List.filter_cons, ih]

/-! ## Lines -/

/-- An element from its name to its end. -/
def body (depth : Nat) : Markup → List Char
  | .leaf name attributes text =>
    name.toList ++ (attributes.flatMap writeAttribute ++ '>' :: (escape text ++ closing name))
  | .block name attributes children =>
    name.toList ++ (attributes.flatMap writeAttribute ++ '>' ::
      ('\n' :: (writeAll (depth + 1) children ++ (List.replicate (2 * depth) ' ' ++ closing name))))
  | .mark name attributes => name.toList ++ (attributes.flatMap writeAttribute ++ ['/', '>'])

theorem write_eq_body (depth : Nat) (m : Markup) :
    write depth m = List.replicate (2 * depth) ' ' ++ '<' :: (body depth m ++ ['\n']) := by
  cases m with
  | leaf name attributes text => simp [write, line, opening, body]
  | block name attributes children => simp [write, line, opening, body]
  | mark name attributes => simp [write, line, opening, body]

/-- The first element of a block comes after a gap, and the line end after it belongs to the next
gap. -/
theorem newline_writeAll_cons (depth : Nat) (m : Markup) (rest : List Markup) (tail : List Char) :
    '\n' :: (writeAll depth (m :: rest) ++ tail)
      = gap depth ++ '<' :: (body depth m ++ '\n' :: (writeAll depth rest ++ tail)) := by
  simp [writeAll, write_eq_body, gap]

/-! ## One step of the reader -/

theorem splitAt?_eq_none {mark cs : List Char} {c : Char} (hmark : c ∈ mark) (hcs : c ∉ cs) :
    splitAt? mark cs = none := by
  induction cs with
  | nil => rfl
  | cons d rest ih =>
    have hafter : after? mark (d :: rest) = none := by
      apply if_neg
      intro h
      exact hcs ((List.isPrefixOf_iff_prefix.1 h).subset hmark)
    have hrest := ih fun h => hcs (List.mem_cons_of_mem _ h)
    simp [splitAt?, hafter, hrest]

/-- A mark does not stand in a text without one of its characters. -/
theorem contains_eq_false {mark cs : List Char} {c : Char} (hmark : c ∈ mark) (hcs : c ∉ cs) :
    contains mark cs = false := by
  simp [contains, splitAt?_eq_none hmark hcs]

theorem readContent_closing (fuel : Nat) (scope : Scope) {name : String} (h : IsWord name)
    (rest : List Char) :
    readContent (fuel + 1) scope (closing name ++ rest) = some ([], ⟨[], name.toList⟩, rest) := by
  have hname := readQName_word h ('>' :: rest) (by simp; decide)
  have hskip : skip ('>' :: rest) = '>' :: rest := rfl
  have htext : closing name ++ rest = '<' :: '/' :: (name.toList ++ '>' :: rest) := by
    simp [closing]
  rw [htext, readContent, hname]
  simp [hskip]

/-- No remark starts with a letter. -/
theorem readRemark_of_isAlpha {c : Char} (hc : c.isAlpha = true) (cs : List Char) :
    readRemark ('<' :: c :: cs) = some none := by
  have hbang := ne_of_isAlpha hc (d := '!') (by decide)
  have hquestion := ne_of_isAlpha hc (d := '?') (by decide)
  simp [readRemark, hbang, hquestion]

theorem readContent_element {fuel : Nat} {scope : Scope} {c : Char} {cs more rest : List Char}
    {node : Node} {nodes : List Node} {closing : QName} (hc : c.isAlpha = true)
    (helement : readElement fuel scope (c :: cs) = some (node, more))
    (hmore : readContent fuel scope more = some (nodes, closing, rest)) :
    readContent (fuel + 1) scope ('<' :: c :: cs) = some (node :: nodes, closing, rest) := by
  have hslash := ne_of_isAlpha hc (d := '/') (by decide)
  have hbang := ne_of_isAlpha hc (d := '!') (by decide)
  have hremark := readRemark_of_isAlpha hc cs
  rw [readContent]
  · simp [hremark, helement, hmore]
  · intro rest h
    exact hslash (List.cons.inj h).1
  · intro rest h
    exact hbang (List.cons.inj h).1

theorem readContent_text {fuel : Nat} {scope : Scope} {raw s cs rest : List Char}
    {nodes : List Node} {closing : QName} (hne : raw ≠ [])
    (hinert : ∀ c ∈ raw, isInert c = true)
    (hread : unescapeText (raw.length + 1) false [] raw = some s)
    (hmore : readContent fuel scope ('<' :: cs) = some (nodes, closing, rest)) :
    readContent (fuel + 1) scope (raw ++ '<' :: cs) = some (joinText s nodes, closing, rest) := by
  have hplain : ∀ c ∈ raw, isChar c = true ∧ c ≠ '<' ∧ c ≠ '>' ∧ c ≠ '"' :=
    fun c hc => isInert_iff.1 (hinert c hc)
  have hlegal : raw.all isChar = true := List.all_eq_true.2 fun c hc => (hplain c hc).1
  have hbracket : ∀ c ∈ raw, decide (c ≠ '<') = true :=
    fun c hc => decide_eq_true (hplain c hc).2.1
  have hbody := Text.takeWhile_run ('<' :: cs) hbracket (by simp)
  have hafter := Text.dropWhile_run ('<' :: cs) hbracket (by simp)
  have hmark : contains "]]>".toList raw = false := by
    have hend : '>' ∉ raw := fun h => (hplain _ h).2.2.1 rfl
    exact contains_eq_false (by decide) hend
  obtain ⟨c, more, rfl⟩ := List.exists_cons_of_ne_nil hne
  have hc : c ≠ '<' := (hplain c (List.mem_cons_self ..)).2.1
  rw [List.cons_append] at hbody hafter ⊢
  rw [readContent]
  · simp only [hbody, hafter, hlegal, hmark, hread, hmore]
    simp
  · exact List.cons_ne_nil _ _
  · intro _ h
    exact hc (List.cons.inj h).1
  · intro _ h
    exact hc (List.cons.inj h).1
  · intro _ h
    exact hc (List.cons.inj h).1

/-! ## Elements -/

theorem length_le_length_attributes (attributes : List (String × String)) :
    attributes.length ≤ (attributes.flatMap writeAttribute).length := by
  induction attributes with
  | nil => simp
  | cons a rest ih =>
    rw [List.flatMap_cons, List.length_append, List.length_cons]
    have hone : 1 ≤ (writeAttribute a).length := by simp [writeAttribute]
    omega

/-- The name of a tag ends where its attributes start. -/
theorem attributes_stop (attributes : List (String × String)) {ending : List Char}
    (hstop : ∀ c, ending.head? = some c → isName c = false) :
    ∀ c, (attributes.flatMap writeAttribute ++ ending).head? = some c → isName c = false := by
  intro c hc
  cases attributes with
  | nil => exact hstop c (by simpa using hc)
  | cons a rest =>
    have hblank : c = ' ' := by simpa [writeAttribute] using hc.symm
    rw [hblank]
    decide

/-- An element is read after its tag: nothing more, or its content and the same name again. -/
theorem readElement_tag (fuel : Nat) {name : String} {attributes : List (String × String)}
    (h : ShapedTag name attributes) (hlegal : ∀ s ∈ attributes.map (·.2), IsLegal s)
    (ending rest : List Char) (empty : Bool)
    (hstop : ∀ c, ending.head? = some c → isName c = false)
    (hend : ∀ fuel, readAttributes (fuel + 1) ending = some ([], empty, rest)) :
    readElement (fuel + 1) [] (name.toList ++ (attributes.flatMap writeAttribute ++ ending))
      = if empty then some (.element name (arrivedAttributes attributes) [], rest)
        else (readContent fuel [] rest).bind fun (children, closing, rest) =>
          if closing = ⟨[], name.toList⟩ then
            some (.element name (arrivedAttributes attributes) children, rest)
          else none := by
  have hname := readQName_word h.name_word _ (attributes_stop attributes hstop)
  have hlength : attributes.length
      < (attributes.flatMap writeAttribute ++ ending).length + 1 := by
    have := length_le_length_attributes attributes
    rw [List.length_append]
    omega
  have hvalues : ∀ a ∈ attributes, IsLegal a.2 := fun a ha => hlegal a.2 (List.mem_map_of_mem ha)
  have hwords : ∀ a ∈ arrivedAttributes attributes, IsWord a.1 := by
    intro a ha
    rcases List.mem_map.1 ha with ⟨b, hb, rfl⟩
    exact h.names_word b hb
  have hdistinct : ((arrivedAttributes attributes).map (·.1)).Nodup :=
    (names_arrivedAttributes attributes).symm ▸ h.names_distinct
  have hread := readAttributes_write h.names_word hvalues hend hlength
  have hdeclare := declare_words hwords
  have hplain := plainAttributes_words hwords hdistinct ([] ++ [])
  have hspace : spaceKnown ([] ++ []) ⟨[], name.toList⟩ = true := rfl
  simp only [readElement, hname, hread, hdeclare, hplain, hspace, nil_ne_declaration, bind,
    Option.bind]
  simp

theorem readElement_open {fuel : Nat} {name : String} {attributes : List (String × String)}
    (h : ShapedTag name attributes) (hlegal : ∀ s ∈ attributes.map (·.2), IsLegal s)
    {cs rest : List Char} {children : List Node}
    (hcontent : readContent fuel [] cs = some (children, ⟨[], name.toList⟩, rest)) :
    readElement (fuel + 1) [] (name.toList ++ (attributes.flatMap writeAttribute ++ '>' :: cs))
      = some (.element name (arrivedAttributes attributes) children, rest) := by
  have htag := readElement_tag fuel h hlegal ('>' :: cs) cs false (by simp; decide) fun _ => rfl
  rw [htag, hcontent]
  simp

theorem readElement_mark (fuel : Nat) {name : String} {attributes : List (String × String)}
    (h : ShapedTag name attributes) (hlegal : ∀ s ∈ attributes.map (·.2), IsLegal s)
    (rest : List Char) :
    readElement (fuel + 1) []
        (name.toList ++ (attributes.flatMap writeAttribute ++ '/' :: '>' :: rest))
      = some (.element name (arrivedAttributes attributes) [], rest) := by
  have htag :=
    readElement_tag fuel h hlegal ('/' :: '>' :: rest) rest true (by simp; decide) fun _ => rfl
  rw [htag, if_pos rfl]

theorem isInert_of_mem_gap {depth : Nat} {c : Char} (hc : c ∈ gap depth) : isInert c = true := by
  rcases List.mem_cons.1 hc with rfl | hc
  · decide
  · rw [List.eq_of_mem_replicate hc]
    decide

theorem unescapeText_gap (depth : Nat) :
    unescapeText ((gap depth).length + 1) false [] (gap depth) = some (gap depth) := by
  have hblanks : ∀ n, (List.replicate n ' ').flatMap escapeChar = List.replicate n ' ' := by
    intro n
    induction n with
    | zero => rfl
    | succ n ih =>
      rw [List.replicate_succ, List.flatMap_cons, ih]
      rfl
  have hescape : (gap depth).flatMap escapeChar = gap depth := by
    rw [gap, List.flatMap_cons, hblanks]
    rfl
  have hreturn : '\r' ∉ gap depth := by simp [gap]
  have hread : unescapeText (((gap depth).flatMap escapeChar).length + 1) false []
      ((gap depth).flatMap escapeChar) = some ([].reverse ++ gap depth) :=
    unescapeText_flatMap false (by simp) hreturn (Nat.lt_succ_self _)
  rwa [hescape] at hread

theorem readContent_gap {fuel : Nat} (depth : Nat) {cs rest : List Char}
    {nodes : List Node} {closing : QName}
    (hmore : readContent fuel [] ('<' :: cs) = some (nodes, closing, rest))  :
    readContent (fuel + 1) [] (gap depth ++ '<' :: cs)
      = some (joinText (gap depth) nodes, closing, rest) :=
  readContent_text (by simp [gap]) (fun _ hc => isInert_of_mem_gap hc) (unescapeText_gap depth)
    hmore

theorem joinText_node (s : List Char) (depth : Nat) (m : Markup) (rest : List Node) :
    joinText s (node depth m :: rest) = .text (String.ofList s) :: node depth m :: rest := by
  cases m <;> rfl

/-- An element starts with the first letter of its name. -/
theorem exists_body_eq_cons (depth : Nat) {m : Markup} (hm : m.Shaped) :
    ∃ c cs, body depth m = c :: cs ∧ c.isAlpha = true := by
  have hword : ∀ {name : String} (cs : List Char), IsWord name →
      ∃ c cs', name.toList ++ cs = c :: cs' ∧ c.isAlpha = true := by
    intro name cs h
    rcases h.exists_cons with ⟨c, cs', hname, hc⟩
    exact ⟨c, cs' ++ cs, by rw [hname, List.cons_append], hc⟩
  cases m with
  | leaf name attributes text => exact hword _ (ShapedTag.name_word hm)
  | block name attributes children => exact hword _ hm.1.name_word
  | mark name attributes => exact hword _ (ShapedTag.name_word hm)

/-- The text of a leaf is read up to its closing tag. -/
theorem readContent_leaf {text name : String} (htext : IsLegal text) (hname : IsWord name)
    {fuel : Nat} (hfuel : 2 ≤ fuel) (rest : List Char) :
    readContent fuel [] (escape text ++ (closing name ++ rest))
      = some (if contentText text = "" then [] else [.text (contentText text)],
          ⟨[], name.toList⟩, rest) := by
  obtain ⟨fuel, rfl⟩ : ∃ n, fuel = n + 2 := ⟨fuel - 2, by omega⟩
  by_cases hempty : text = ""
  · subst hempty
    exact readContent_closing (fuel + 1) [] hname rest
  · have hclosing := readContent_closing fuel [] hname rest
    rw [closing, List.cons_append] at hclosing ⊢
    have hne : escape text ≠ [] := by
      intro h
      have hchars := List.flatMap_eq_nil_iff.1 h
      refine hempty (String.toList_eq_nil_iff.1 (List.eq_nil_iff_forall_not_mem.2 ?_))
      exact fun c hc => escapeChar_ne_nil c (hchars c hc)
    have hread := readContent_text hne (fun c hc => inert_of_mem_escape htext hc)
      (unescapeText_contentText text) hclosing
    rw [hread, if_neg (mt contentText_eq_empty_iff.1 hempty)]
    simp [joinText]

mutual

/-- An element is read, with its content, up to its end. -/
theorem readElement_body (depth : Nat) (m : Markup) (hm : m.Shaped)
    (hlegal : ∀ s ∈ m.texts, IsLegal s) {fuel : Nat} (hfuel : (body depth m).length ≤ fuel)
    (rest : List Char) :
    readElement fuel [] (body depth m ++ rest) = some (node depth m.arrived, rest) := by
  obtain ⟨fuel, rfl⟩ : ∃ n, fuel = n + 1 := by
    rcases exists_body_eq_cons depth hm with ⟨c, cs, hbody, -⟩
    rw [hbody, List.length_cons] at hfuel
    exact ⟨fuel - 1, by omega⟩
  match m with
  | .leaf name attributes text =>
    simp only [body, List.length_append, List.length_cons, closing] at hfuel
    have hroom : 2 ≤ fuel := by omega
    rcases List.forall_mem_append.1 hlegal with ⟨hvalues, htext⟩
    have hcontent := readContent_leaf (List.forall_mem_singleton.1 htext)
      (ShapedTag.name_word hm) hroom rest
    have hread := readElement_open hm hvalues hcontent
    simpa [body, node, arrived] using hread
  | .block name attributes children =>
    simp only [body, List.length_append, List.length_cons, List.length_replicate] at hfuel
    have hroom : (writeAll (depth + 1) children).length + (gap depth).length
        + (closing name).length ≤ fuel := by
      simp only [gap, List.length_cons, List.length_replicate]
      omega
    rcases List.forall_mem_append.1 hlegal with ⟨hvalues, hchildren⟩
    have hcontent := readContent_writeAll depth children hm.2 hchildren hm.1.name_word hroom rest
    have hread := readElement_open hm.1 hvalues hcontent
    simpa [body, node, arrived] using hread
  | .mark name attributes =>
    have hread := readElement_mark fuel hm hlegal rest
    simpa [body, node, arrived] using hread

/-- The content of a block is read from the line end after its tag up to its closing tag. -/
theorem readContent_writeAll (depth : Nat) (ms : List Markup) (hms : ShapedAll ms)
    (hlegal : ∀ s ∈ allTexts ms, IsLegal s) {name : String} (hname : IsWord name) {fuel : Nat}
    (hfuel : (writeAll (depth + 1) ms).length + (gap depth).length + (closing name).length ≤ fuel)
    (rest : List Char) :
    readContent fuel []
        ('\n' :: (writeAll (depth + 1) ms ++
          (List.replicate (2 * depth) ' ' ++ (closing name ++ rest))))
      = some (content depth (arrivedAll ms), ⟨[], name.toList⟩, rest) := by
  obtain ⟨fuel, rfl⟩ : ∃ n, fuel = n + 2 := by
    simp only [gap, closing, List.length_cons] at hfuel
    exact ⟨fuel - 2, by omega⟩
  match ms with
  | [] =>
    have hclosing := readContent_closing fuel [] hname rest
    rw [closing, List.cons_append] at hclosing ⊢
    have hread := readContent_gap depth hclosing
    simpa [writeAll, gap, content, joinText, arrivedAll] using hread
  | m :: more =>
    have hlength : (writeAll (depth + 1) (m :: more)).length
        = (body (depth + 1) m).length + (writeAll (depth + 1) more).length
          + 2 * (depth + 1) + 2 := by
      simp only [writeAll, write_eq_body, List.length_append, List.length_cons,
        List.length_replicate, List.length_nil]
      omega
    have hfirst : (body (depth + 1) m).length ≤ fuel := by omega
    have hothers : (writeAll (depth + 1) more).length + (gap depth).length
        + (closing name).length ≤ fuel := by omega
    rcases List.forall_mem_append.1 hlegal with ⟨hfirstLegal, hmoreLegal⟩
    have helement := readElement_body (depth + 1) m hms.1 hfirstLegal hfirst
      ('\n' :: (writeAll (depth + 1) more ++
        (List.replicate (2 * depth) ' ' ++ (closing name ++ rest))))
    have hmore := readContent_writeAll depth more hms.2 hmoreLegal hname hothers rest
    -- the first letter of its name shows that an element starts, and not a remark
    rcases exists_body_eq_cons (depth + 1) hms.1 with ⟨c, cs, hbody, hc⟩
    rw [newline_writeAll_cons, hbody, List.cons_append]
    rw [hbody, List.cons_append] at helement
    have hread := readContent_gap (depth + 1) (readContent_element hc helement hmore)
    rw [hread, joinText_node, arrivedAll, content]

end

end Markup

/-! ## Documents -/

/-- The first line of a document is read up to the end of its declaration. -/
theorem readDeclaration_write (rest : List Char) :
    readDeclaration (' ' :: ("version=\"1.0\" encoding=\"UTF-8\"?>".toList ++ rest)) = some rest :=
  rfl

/-- A document is read from where its root element starts. -/
theorem read_of_start {m : Markup} (hm : m.Shaped) (hlegal : ∀ s ∈ m.texts, IsLegal s)
    {cs : List Char} (rest : List Char)
    (hmark : ∀ rest, cs ≠ '\uFEFF' :: rest)
    (hdeclaration : (after? "<?xml ".toList cs).elim (some cs)
      (fun rest => readDeclaration (' ' :: rest)) = some rest)
    (hstart : skip rest = '<' :: (m.body 0 ++ ['\n'])) (hlength : (m.body 0).length ≤ cs.length) :
    read cs = some (m.arrived.node 0) := by
  have hremarks : ∀ fuel, skipRemarks (fuel + 1) rest = some ('<' :: (m.body 0 ++ ['\n'])) := by
    intro fuel
    rcases Markup.exists_body_eq_cons 0 hm with ⟨c, cs, hbody, hc⟩
    rw [hbody] at hstart ⊢
    rw [skipRemarks, hstart, List.cons_append, Markup.readRemark_of_isAlpha hc]
    rfl
  have hend : ∀ fuel, skipRemarks (fuel + 1) ['\n'] = some [] := fun _ => rfl
  have hfuel : (m.body 0).length ≤ 2 * (cs.length + 1) := by omega
  have hroot := Markup.readElement_body 0 m hm hlegal hfuel ['\n']
  rw [read]
  · cases hafter : after? "<?xml ".toList cs with
    | none =>
      rw [hafter] at hdeclaration
      obtain rfl : cs = rest := Option.some.inj hdeclaration
      simp only [hremarks, hroot, hend, bind, Option.bind, List.isEmpty_nil, if_true]
    | some more =>
      rw [hafter] at hdeclaration
      simp only [Option.elim] at hdeclaration
      simp only [hdeclaration, hremarks, hroot, hend, bind, Option.bind, List.isEmpty_nil, if_true]
  · exact hmark

/-- A laid-out document is read, with its texts as they arrive. -/
theorem read_write_arrived {m : Markup} (hm : m.Shaped) (hlegal : ∀ s ∈ m.texts, IsLegal s) :
    read ("<?xml version=\"1.0\" encoding=\"UTF-8\"?>\n".toList ++ m.write 0)
      = some (m.arrived.node 0) := by
  rw [Markup.write_eq_body]
  refine read_of_start hm hlegal ('\n' :: '<' :: (m.body 0 ++ ['\n'])) ?_ ?_ rfl ?_
  · -- the text does not start with a byte order mark
    intro rest h
    exact absurd (List.cons.inj h).1 (by decide)
  · exact readDeclaration_write _
  · simp only [List.length_append, List.length_cons]
    omega

/-- A clean document is read back. -/
theorem read_write {m : Markup} (hm : m.Clean) :
    read ("<?xml version=\"1.0\" encoding=\"UTF-8\"?>\n".toList ++ m.write 0)
      = some (m.node 0) := by
  rw [read_write_arrived hm.shaped hm.legal, hm.arrived_eq]

/-- The declaration may be left out. -/
theorem read_write_root {m : Markup} (hm : m.Clean) : read (m.write 0) = some (m.node 0) := by
  have hread : read (m.write 0) = some (m.arrived.node 0) := by
    rw [Markup.write_eq_body]
    refine read_of_start hm.shaped hm.legal ('<' :: (m.body 0 ++ ['\n'])) ?_ ?_ rfl ?_
    · intro rest h
      exact absurd (List.cons.inj h).1 (by decide)
    · -- a tag starts with a letter, a declaration does not
      rcases Markup.exists_body_eq_cons 0 hm.shaped with ⟨c, cs, hbody, hc⟩
      have hquestion := ne_of_isAlpha hc (d := '?') (by decide)
      rw [hbody]
      simp [after?, List.isPrefixOf, Ne.symm hquestion]
    · simp only [List.length_append, List.length_cons]
      omega
  rw [hread, hm.arrived_eq]

end Xml
end SignalTree
