import Mathlib.Data.List.Forall2
import SignalTree.Proofs.Frame
import SignalTree.Proofs.Value.Reading
import SignalTree.Wire.Reader

/-!
# Reading — what is read from a document

The elements of a document say which kind a value has: a list by an attribute, a scalar by the name
of the element that holds it, and a map by being one.  Each entry of a frame, and of each frame or
map inside it, has the kind that its element says.  Of elements with the same key the last one
counts.

* `Wire.source?`: the element from which the entry under a key is read;
* `Wire.Fits`: a value has the kind that its element says, at any depth;
* `Wire.gives_readEntry`: the induction over elements;
* `Wire.gives_readFrame`, `Wire.gives_readDocument`: what is read from a document fits it.
-/

namespace SignalTree
namespace Wire

open Xml (Node)

/-! ## Elements and values -/

/-- Whether an element is read as an entry. -/
def isEntry (n : Node) : Bool := n.isNamed valueTag || n.isNamed arrayTag || n.isNamed mapTag

/-- The element that says kind and text of a scalar: the first that is not the list of allowed
values. -/
def holder? (n : Node) : Option Node :=
  n.children.find? fun c => c.isElement && !c.isNamed restrictedTag

/-- The last element inside an element that is read as an entry under a key. -/
def source? (n : Node) (key : String) : Option Node :=
  (n.children.filter isEntry).reverse.find? fun c => c.attribute? keyName == some key

mutual

/-- A value has the kind that an element says, and so have the values inside a map. -/
def Fits : Node → Value → Prop
  | n, .scalar s => n.isNamed valueTag = true ∧
      ∃ holder, holder? n = some holder ∧ ScalarKind.ofName? holder.name = some s.kind
  | n, .list l => n.isNamed arrayTag = true ∧
      ∃ name, n.attribute? typeName = some name ∧ ScalarKind.ofName? name = some l.kind
  | n, .map entries => n.isNamed mapTag = true ∧ FitsEntries n entries

/-- Each entry fits the element it is read from. -/
def FitsEntries : Node → List (String × Value) → Prop
  | _, [] => True
  | n, (key, v) :: rest => (∃ c, source? n key = some c ∧ Fits c v) ∧ FitsEntries n rest

end

/-- The entries of a frame fit the element of a document, if it has one. -/
def FitsFrame : Option Node → Frame → Prop
  | some n, f => FitsEntries n f.toMap
  | none, f => f = Frame.empty

theorem fitsEntries_iff {n : Node} {entries : List (String × Value)} :
    FitsEntries n entries ↔ ∀ p ∈ entries, ∃ c, source? n p.1 = some c ∧ Fits c p.2 := by
  induction entries with
  | nil => simp [FitsEntries]
  | cons p rest ih => rw [FitsEntries, ih, List.forall_mem_cons]

/-! ## Parts of an element -/

theorem gives_required (n : Node) (name : String) :
    Gives (fun v => n.attribute? name = some v) (required n name) := by
  unfold required
  cases hv : n.attribute? name with
  | none => trivial
  | some v => exact rfl

theorem gives_readTier (n : Node) : Gives (fun _ => True) (readTier n) := by
  unfold readTier
  split
  · trivial
  · split
    · trivial
    · trivial

section Items

variable {P : Value → Prop} {decode : String → Except Error Value}

theorem gives_readItems (hdecode : ∀ text, Gives P (decode text)) (i : Nat) (texts : List String) :
    Gives (fun values => ∀ v ∈ values, P v) (readItems decode i texts) := by
  induction texts generalizing i with
  | nil => exact List.forall_mem_nil _
  | cons text rest ih =>
    rw [readItems]
    have hfirst := hdecode text
    generalize decode text = first at hfirst ⊢
    cases first with
    | error e => exact hfirst.located _
    | ok v => exact (ih (i + 1)).map fun others hothers => List.forall_mem_cons.2 ⟨hfirst, hothers⟩

theorem gives_checkSize (name : String) (items : List Value) (size : Option String) :
    Gives (fun _ => True) (checkSize name items size) := by
  unfold checkSize
  split
  · trivial
  · split
    · trivial
    · split
      · trivial
      · trivial

theorem gives_itemsOf (hdecode : ∀ text, Gives P (decode text)) (n : Node) (name : String) :
    Gives (fun values => ∀ v ∈ values, P v) (itemsOf n name decode) :=
  (gives_readItems hdecode 0 _).bind fun _ hvalues =>
    (gives_checkSize ..).bind fun _ _ => hvalues

theorem gives_decode_scalar (kind : ScalarKind) (text : String) :
    Gives (fun v : Value => v.kind = .scalar kind) ((Scalar.decode text kind).map .scalar) :=
  Value.gives_decode text (.scalar kind)

end Items

theorem gives_readRestricted (n : Node) : Gives (fun _ => True) (readRestricted n) := by
  unfold readRestricted
  split
  · trivial
  · rename_i r _
    refine (gives_required r typeName).bind fun name _ => ?_
    cases hkind : Kind.ofName? name with
    | none => trivial
    | some kind =>
      have hitems := gives_itemsOf (fun text => Value.gives_decode text kind) r name
      simp only
      generalize itemsOf r name _ = items at hitems ⊢
      cases items with
      | error e => exact hitems.located _
      | ok values => trivial

theorem gives_readMeta (n : Node) : Gives (fun _ => True) (readMeta n) :=
  (gives_readRestricted n).bind fun _ _ => (gives_readTier n).bind fun _ _ => trivial

/-! ## Entries -/

theorem gives_readScalar {n : Node} (hname : n.isNamed valueTag = true) :
    Gives (fun e => Fits n e.toValue) (readScalar n) := by
  unfold readScalar
  split
  · trivial
  · rename_i holder hholder
    split
    · trivial
    · rename_i kind hkind
      refine (Scalar.gives_decode (textOf holder) kind).bind fun s hs => ?_
      refine (gives_readMeta n).bind fun info _ => ?_
      exact ⟨hname, holder, hholder, hs ▸ hkind⟩

theorem gives_readArray {n : Node} (hname : n.isNamed arrayTag = true) :
    Gives (fun e => Fits n e.toValue) (readArray n) := by
  refine (gives_required n typeName).bind fun name htype => ?_
  split
  · trivial
  · rename_i kind hkind
    refine (gives_itemsOf (gives_decode_scalar kind) n kind.name).bind fun items hitems => ?_
    refine (Value.gives_ofValues hitems).bind fun l hl => ?_
    refine (gives_readMeta n).bind fun info _ => ?_
    exact ⟨hname, name, htype, hl ▸ hkind⟩

/-- With or without what only a value can have, it is a map. -/
theorem gives_nestedEntry (n : Node) (f : Frame) :
    Gives (fun e => e.toValue = .map f.toMap) (nestedEntry n f) := by
  unfold nestedEntry
  split
  · exact rfl
  · exact (gives_readMeta n).map fun _ _ => rfl

/-- What is read as the entry under a key fits an element with this key. -/
def FitsUnder (n : Node) (p : String × Entry) : Prop :=
  n.attribute? keyName = some p.1 ∧ Fits n p.2.toValue

/-- A look-up finds what is read from the first element with the key. -/
theorem exists_find?_of_lookup {elements : List Node} {entries : List (String × Entry)}
    (h : List.Forall₂ FitsUnder elements entries) {key : String} {e : Entry}
    (he : entries.lookup key = some e) :
    ∃ c, elements.find? (fun c => c.attribute? keyName == some key) = some c ∧
      Fits c e.toValue := by
  induction h with
  | nil => cases he
  | @cons c p elements entries hfirst _ ih =>
    rcases p with ⟨key', e'⟩
    rcases hfirst with ⟨hkey, hfits⟩
    by_cases hsame : key' = key
    · subst hsame
      obtain rfl : e' = e := by simpa using he
      exact ⟨c, by simp [hkey], hfits⟩
    · have hrest : entries.lookup key = some e := by
        rwa [List.lookup_cons, beq_false_of_ne (Ne.symm hsame)] at he
      rcases ih hrest with ⟨c', hc', hfits'⟩
      exact ⟨c', by simpa [hkey, hsame] using hc', hfits'⟩

/-- Of elements with the same key the last one counts, and so does what is read from it. -/
theorem fitsEntries_frameOf {n : Node} {entries : List (String × Entry)} (tier : Option Tier)
    (h : List.Forall₂ FitsUnder (n.children.filter isEntry) entries) :
    FitsEntries n (frameOf n tier entries).toMap := by
  rw [frameOf, Frame.toMap, Entry.toMapEntries_eq_map, fitsEntries_iff, List.forall_mem_map]
  rintro ⟨key, e⟩ hmem
  have hlookup : (Keyed.ofList entries).lookup key = some e :=
    Keyed.lookup_eq_some_of_mem (Keyed.distinct_ofList entries) hmem
  rw [Keyed.lookup_ofList] at hlookup
  exact exists_find?_of_lookup (List.forall₂_reverse_iff.2 h) hlookup

section Element

variable {name tag : String} {attributes : List (String × String)} {children : List Node}

theorem isNamed_element :
    (Node.element name attributes children).isNamed tag = true ↔ name = tag := by
  simp [Node.isNamed, Node.name?]

theorem isEntry_element : isEntry (.element name attributes children) = true ↔
    name = valueTag ∨ name = arrayTag ∨ name = mapTag := by
  simp [isEntry, isNamed_element, or_assoc]

end Element

mutual

/-- What is read from an element fits it, and nothing is read from one that is passed over. -/
theorem gives_readEntry (n : Node) :
    Gives (fun r => match r with
      | none => isEntry n = false
      | some p => isEntry n = true ∧ FitsUnder n p) (readEntry n) := by
  cases n with
  | element name attributes children =>
    rw [readEntry]
    extract_lets entry
    have hfits : name = valueTag ∨ name = arrayTag ∨ name = mapTag →
        Gives (fun e => Fits (.element name attributes children) e.toValue) entry := by
      intro hname
      dsimp only [entry]
      split
      · rename_i hvalue
        exact gives_readScalar (isNamed_element.2 hvalue)
      · rename_i hvalue
        split
        · rename_i harray
          exact gives_readArray (isNamed_element.2 harray)
        · rename_i harray
          have hmap : name = mapTag := (hname.resolve_left hvalue).resolve_left harray
          refine (gives_readTier _).bind fun tier _ => ?_
          refine (gives_readEntries children).bind fun entries hentries => ?_
          refine (gives_nestedEntry _ _).mono fun e he => ?_
          rw [he]
          exact ⟨isNamed_element.2 hmap, fitsEntries_frameOf tier hentries⟩
    generalize entry = read at hfits ⊢
    by_cases hname : name = valueTag ∨ name = arrayTag ∨ name = mapTag
    · rw [if_pos (by simpa [or_assoc] using hname)]
      refine (gives_required _ keyName).bind fun key hkey => ?_
      replace hfits := hfits hname
      cases read with
      | error e => exact hfits.located key
      | ok e => exact ⟨isEntry_element.2 hname, hkey, hfits⟩
    · rw [if_neg (by simpa [or_assoc] using hname)]
      exact Bool.eq_false_iff.2 (mt isEntry_element.1 hname)
  | text s =>
    unfold readEntry
    exact rfl
  | remark =>
    unfold readEntry
    exact rfl

theorem gives_readEntries (ns : List Node) :
    Gives (List.Forall₂ FitsUnder (ns.filter isEntry)) (readEntries ns) := by
  cases ns with
  | nil =>
    rw [readEntries]
    exact List.Forall₂.nil
  | cons n rest =>
    rw [readEntries]
    refine (gives_readEntry n).bind fun first hfirst => ?_
    refine (gives_readEntries rest).bind fun entries hentries => ?_
    cases first with
    | none =>
      rw [List.filter_cons_of_neg (by simp [hfirst])]
      exact hentries
    | some p =>
      rw [List.filter_cons_of_pos hfirst.1]
      exact List.Forall₂.cons hfirst.2 hentries

end

/-! ## Documents -/

theorem gives_readMap (n : Node) : Gives (fun f => FitsEntries n f.toMap) (readMap n) :=
  (gives_readTier n).bind fun tier _ =>
    (gives_readEntries n.children).bind fun _ hentries => fitsEntries_frameOf tier hentries

theorem gives_readMap? (m : Option Node) : Gives (FitsFrame m) (readMap? m) := by
  cases m with
  | none => exact rfl
  | some n => exact gives_readMap n

theorem gives_readRoot (text : String) : Gives (fun _ => True) (readRoot text) := by
  unfold readRoot
  split
  · trivial
  · trivial

theorem gives_signalOf (root : Node) : Gives (fun _ => True) (signalOf root) := by
  unfold signalOf
  split
  · trivial
  · extract_lets inner
    clear_value inner
    cases inner with
    | none => trivial
    | some n => trivial

theorem gives_mapOf (root : Node) : Gives (fun _ => True) (mapOf root) := by
  unfold mapOf
  split
  · trivial
  · exact (gives_signalOf root).map fun _ _ => trivial

/-- What is read as a frame fits the element with the frame. -/
theorem gives_readFrame (text : String) :
    Gives (fun f => ∃ m, readRoot text >>= mapOf = .ok m ∧ FitsFrame m f) (readFrame text) := by
  have hroot : Gives (fun _ => True) (readRoot text >>= mapOf) :=
    (gives_readRoot text).bind fun root _ => gives_mapOf root
  have hread : readFrame text = (readRoot text >>= mapOf) >>= readMap? := (bind_assoc ..).symm
  rw [hread]
  exact hroot.bind_of_eq fun m hm => (gives_readMap? m).mono fun f hf => ⟨m, hm, hf⟩

/-- What is read as a signal has a frame that fits the element of the signal. -/
theorem gives_readDocument (text : String) :
    Gives (fun d => ∃ n, readRoot text >>= signalOf = .ok n ∧
      FitsFrame (n.child? mapTag) d.frame) (readDocument text) := by
  have hroot : Gives (fun _ => True) (readRoot text >>= signalOf) :=
    (gives_readRoot text).bind fun root _ => gives_signalOf root
  have hread : readDocument text = (readRoot text >>= signalOf) >>= fun n => do
      let frame ← readMap? (n.child? mapTag)
      return ⟨(n.attribute? targetName).getD "", (n.attribute? receiverName).getD "", frame⟩ :=
    (bind_assoc ..).symm
  rw [hread]
  exact hroot.bind_of_eq fun n hn => (gives_readMap? _).bind fun f hf => ⟨n, hn, hf⟩

end Wire
end SignalTree
