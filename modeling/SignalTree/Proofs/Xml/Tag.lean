import Mathlib.Data.List.Nodup
import SignalTree.Proofs.Text.Run
import SignalTree.Proofs.Xml.Arrival
import SignalTree.Xml.Markup

/-!
# Tag — tags are read back

The names in the markup of this library are plain words and there are no prefixes, so no tag
declares a namespace and none can clash with one.

* `Xml.IsWord`: the names that are written;
* `Xml.ShapedTag`, `Xml.CleanTag`: tags with words as names, and those of which nothing is lost;
* `Xml.readAttributes_write`: the attributes as they arrive, up to the end of the tag;
* `Xml.plainAttributes_words`: the attributes that are kept.
-/

namespace SignalTree
namespace Xml

/-! ## Names -/

/-- A word of letters; `xmlns` has a meaning of its own. -/
def IsWord (s : String) : Prop :=
  s.toList ≠ [] ∧ s.toList.all Char.isAlpha = true ∧ s.toList ≠ "xmlns".toList

instance (s : String) : Decidable (IsWord s) := by unfold IsWord; infer_instance

theorem isName_of_isAlpha {c : Char} (h : c.isAlpha = true) : isName c = true := by
  simp [isName, isNameStart, h]

theorem ne_of_isAlpha {c d : Char} (hc : c.isAlpha = true) (hd : d.isAlpha = false) : c ≠ d := by
  intro hcd
  rw [hcd, hd] at hc
  cases hc

theorem isSpace_of_isAlpha {c : Char} (h : c.isAlpha = true) : isSpace c = false := by
  have hblank := ne_of_isAlpha h (d := ' ') (by decide)
  have htab := ne_of_isAlpha h (d := '\t') (by decide)
  have hfeed := ne_of_isAlpha h (d := '\n') (by decide)
  have hreturn := ne_of_isAlpha h (d := '\r') (by decide)
  simp [isSpace, hblank, htab, hfeed, hreturn]

/-- A word starts with a letter. -/
theorem IsWord.exists_cons {s : String} (h : IsWord s) :
    ∃ c cs, s.toList = c :: cs ∧ c.isAlpha = true := by
  rcases h with ⟨hne, hall, -⟩
  cases hs : s.toList with
  | nil => exact absurd hs hne
  | cons c cs =>
    rw [hs, List.all_cons, Bool.and_eq_true] at hall
    exact ⟨c, cs, rfl, hall.1⟩

/-- A word is read as a name without a prefix. -/
theorem readQName_word {s : String} (h : IsWord s) (rest : List Char)
    (hstop : ∀ c, rest.head? = some c → isName c = false) :
    readQName (s.toList ++ rest) = some (⟨[], s.toList⟩, rest) := by
  have hletter : ∀ c ∈ s.toList, c.isAlpha = true := fun c hc => List.all_eq_true.1 h.2.1 c hc
  have hname : ∀ c ∈ s.toList, isName c = true := fun c hc => isName_of_isAlpha (hletter c hc)
  have hcolon : ∀ c ∈ s.toList, decide (c ≠ ':') = true := by
    intro c hc
    apply decide_eq_true
    rintro rfl
    exact absurd (hletter ':' hc) (by decide)
  have hword := Text.takeWhile_run rest hname hstop
  have hrest := Text.dropWhile_run rest hname hstop
  have hfirst := Text.takeWhile_run [] hcolon (by simp)
  have hsecond := Text.dropWhile_run [] hcolon (by simp)
  rw [List.append_nil] at hfirst hsecond
  have hstart : startsName s.toList = true := by
    rcases h.exists_cons with ⟨c, cs, hs, hc⟩
    rw [hs]
    simp [startsName, isNameStart, hc]
  simp only [readQName, hword, hrest, hfirst, hsecond, hstart, if_true]

/-! ## Attributes -/

/-- A tag whose names are words, none of them twice. -/
structure ShapedTag (name : String) (attributes : List (String × String)) : Prop where
  name_word : IsWord name
  names_word : ∀ a ∈ attributes, IsWord a.1
  names_distinct : (attributes.map (·.1)).Nodup

/-- A tag of which nothing is lost. -/
structure CleanTag (name : String) (attributes : List (String × String)) : Prop where
  name_word : IsWord name
  names_word : ∀ a ∈ attributes, IsWord a.1
  names_distinct : (attributes.map (·.1)).Nodup
  values_kept : ∀ a ∈ attributes, IsAttribute a.2

/-- Attributes as they arrive. -/
def arrivedAttributes (attributes : List (String × String)) : List (String × String) :=
  attributes.map fun a => (a.1, attributeText a.2)

theorem names_arrivedAttributes (attributes : List (String × String)) :
    (arrivedAttributes attributes).map (·.1) = attributes.map (·.1) := by
  simp [arrivedAttributes, Function.comp_def]

theorem CleanTag.shaped {name : String} {attributes : List (String × String)}
    (h : CleanTag name attributes) : ShapedTag name attributes :=
  ⟨h.name_word, h.names_word, h.names_distinct⟩

theorem arrivedAttributes_of_isAttribute {attributes : List (String × String)}
    (h : ∀ a ∈ attributes, IsAttribute a.2) : arrivedAttributes attributes = attributes :=
  calc attributes.map (fun a => (a.1, attributeText a.2))
      = attributes.map id := List.map_congr_left fun a ha => by
        rw [attributeText_of_isAttribute (h a ha)]
        rfl
    _ = attributes := List.map_id _

theorem CleanTag.arrived_eq {name : String} {attributes : List (String × String)}
    (h : CleanTag name attributes) : arrivedAttributes attributes = attributes :=
  arrivedAttributes_of_isAttribute h.values_kept

/-- An attribute as it is read. -/
def Attribute.ofPair (a : String × String) : Attribute := ⟨⟨[], a.1.toList⟩, a.2⟩

theorem readAttribute_write {a : String × String} (hname : IsWord a.1) (hvalue : IsLegal a.2)
    (rest : List Char) :
    readAttribute (a.1.toList ++ '=' :: '"' :: (escape a.2 ++ '"' :: rest))
      = some (Attribute.ofPair (a.1, attributeText a.2), rest) := by
  have hinert : ∀ c ∈ escape a.2, isChar c = true ∧ c ≠ '<' ∧ c ≠ '>' ∧ c ≠ '"' :=
    fun c hc => isInert_iff.1 (inert_of_mem_escape hvalue hc)
  have hinside : ∀ c ∈ escape a.2, (decide (c ≠ '"') && decide (c ≠ '<')) = true := by
    intro c hc
    rcases hinert c hc with ⟨-, hlt, -, hquot⟩
    simp [hlt, hquot]
  have hlegal : (escape a.2).all isChar = true :=
    List.all_eq_true.2 fun c hc => (hinert c hc).1
  have hword := readQName_word hname ('=' :: '"' :: (escape a.2 ++ '"' :: rest))
    (by simp; decide)
  have hraw := Text.takeWhile_run ('"' :: rest) hinside (by simp)
  have hafter := Text.dropWhile_run ('"' :: rest) hinside (by simp)
  have hread := unescapeAttribute_attributeText a.2
  have hskip : ∀ cs, skip ('=' :: cs) = '=' :: cs := fun cs => rfl
  have hskip' : ∀ cs, skip ('"' :: cs) = '"' :: cs := fun cs => rfl
  have hquote : (decide ('"' ≠ '"') && decide ('"' ≠ '\'')) = false := by decide
  have hwhole : readRawAttribute (a.1.toList ++ '=' :: '"' :: (escape a.2 ++ '"' :: rest))
      = some (⟨[], a.1.toList⟩, escape a.2, rest) := by
    simp only [readRawAttribute, hword, bind, Option.bind, hskip, hskip', hquote, hraw, hafter,
      hlegal, Bool.not_true, Bool.false_eq_true, if_false, if_true]
  simp [readAttribute, hwhole, hread, Attribute.ofPair]

/-- The attributes of a tag are read up to its end. -/
theorem readAttributes_write {attributes : List (String × String)}
    (hnames : ∀ a ∈ attributes, IsWord a.1) (hvalues : ∀ a ∈ attributes, IsLegal a.2)
    {ending rest : List Char} {empty : Bool} (hend : ∀ fuel,
      readAttributes (fuel + 1) ending = some ([], empty, rest))
    {fuel : Nat} (hfuel : attributes.length < fuel) :
    readAttributes fuel (attributes.flatMap Markup.writeAttribute ++ ending)
      = some ((arrivedAttributes attributes).map Attribute.ofPair, empty, rest) := by
  induction attributes generalizing fuel with
  | nil =>
    obtain ⟨fuel, rfl⟩ : ∃ n, fuel = n + 1 := ⟨fuel - 1, by simp at hfuel; omega⟩
    exact hend fuel
  | cons a attributes ih =>
    rw [List.length_cons] at hfuel
    obtain ⟨fuel, rfl⟩ : ∃ n, fuel = n + 1 := ⟨fuel - 1, by omega⟩
    have hname := hnames a (List.mem_cons_self ..)
    have hless : attributes.length < fuel := by omega
    have hrest := ih (fun b hb => hnames b (List.mem_cons_of_mem _ hb))
      (fun b hb => hvalues b (List.mem_cons_of_mem _ hb)) hless
    have hread := readAttribute_write hname (hvalues a (List.mem_cons_self ..))
      (attributes.flatMap Markup.writeAttribute ++ ending)
    rcases hname.exists_cons with ⟨c, cs, hcons, hc⟩
    have htext : (a :: attributes).flatMap Markup.writeAttribute ++ ending
        = ' ' :: c :: (cs ++ '=' :: '"' ::
          (escape a.2 ++ '"' :: (attributes.flatMap Markup.writeAttribute ++ ending))) := by
      simp [Markup.writeAttribute, hcons]
    have hskip : ∀ more, skip (' ' :: c :: more) = c :: more := by
      intro more
      have hblank := isSpace_of_isAlpha hc
      have : isSpace ' ' = true := by decide
      simp [skip, hblank, this]
    -- the letter is no end of the tag, so another attribute is read
    have hslash := ne_of_isAlpha hc (d := '/') (by decide)
    have hmark := ne_of_isAlpha hc (d := '>') (by decide)
    rw [hcons, List.cons_append] at hread
    rw [htext, readAttributes, hskip]
    split
    · next h => exact absurd (List.cons.inj h).1 hslash
    · next h => exact absurd (List.cons.inj h).1 hmark
    · rw [if_neg (by simp)]
      simp [hread, hrest, arrivedAttributes]

/-! ## Namespaces -/

theorem nil_ne_declaration : ([] : List Char) ≠ "xmlns".toList := by decide

theorem not_declares_ofPair {a : String × String} (h : IsWord a.1) :
    (Attribute.ofPair a).declares = false := by
  have hname := h.2.2
  simp only [Attribute.declares, Attribute.ofPair, hname, nil_ne_declaration, decide_false,
    Bool.or_false]

/-- Words declare no namespace. -/
theorem declare_words {attributes : List (String × String)}
    (hnames : ∀ a ∈ attributes, IsWord a.1) :
    declare [] (attributes.map Attribute.ofPair) = some [] := by
  induction attributes with
  | nil => rfl
  | cons a attributes ih =>
    have hname := (hnames a (List.mem_cons_self ..)).2.2
    have hrest := ih fun b hb => hnames b (List.mem_cons_of_mem _ hb)
    have hspace : (Attribute.ofPair a).name.space ≠ "xmlns".toList := nil_ne_declaration
    have hword : (Attribute.ofPair a).name.name ≠ "xmlns".toList := hname
    rw [List.map_cons, declare, if_neg hspace, if_neg hword, hrest]

/-- Words in a tag are all kept. -/
theorem plainAttributes_words {attributes : List (String × String)}
    (hnames : ∀ a ∈ attributes, IsWord a.1) (hdistinct : (attributes.map (·.1)).Nodup)
    (scope : Scope) :
    plainAttributes scope (attributes.map Attribute.ofPair) = some attributes := by
  have hfilter : (attributes.map Attribute.ofPair).filter (fun a => !a.declares)
      = attributes.map Attribute.ofPair := by
    apply List.filter_eq_self.2
    intro b hb
    rcases List.mem_map.1 hb with ⟨a, ha, rfl⟩
    simp [not_declares_ofPair (hnames a ha)]
  have hresolve : (attributes.map Attribute.ofPair).mapM (resolve scope)
      = some (attributes.map fun a => (none, a.1, a.2)) := by
    clear hfilter hdistinct
    induction attributes with
    | nil => rfl
    | cons a attributes ih =>
      have hrest := ih fun b hb => hnames b (List.mem_cons_of_mem _ hb)
      have ha : resolve scope (Attribute.ofPair a) = some (none, a.1, a.2) := by
        simp [resolve, Attribute.ofPair]
      rw [List.map_cons, List.mapM_cons, ha, hrest]
      rfl
  -- without namespaces, distinct names are distinct pairs
  have hnodup : ((attributes.map fun a => ((none : Option String), a.1, a.2)).map
      fun a => (a.1, a.2.1)).Nodup := by
    have hinjective : (fun name : String => ((none : Option String), name)).Injective :=
      fun _ _ h => (Prod.mk.inj h).2
    simpa [Function.comp_def] using hdistinct.map hinjective
  simp only [plainAttributes, hfilter, hresolve, bind, Option.bind, if_pos hnodup]
  simp [List.filter_map, Function.comp_def]

end Xml
end SignalTree
