import Mathlib.Data.List.Forall2
import Mathlib.Logic.Relation
import SignalTree.Proofs.Xml.Layout
import SignalTree.Wire.Reader

/-!
# Padding — elements that are not known change nothing

A document may hold more than the reader asks for.  An element that the reader does not know may
stand next to the entries of a frame, next to the items of a list, after the element with the value,
and around the frame of a signal; and every element may carry more attributes.

* `Wire.Adds`: an element or an attribute that is not known is added to a tree, at any depth;
* `Wire.Padded`: a tree and the same with any number of additions;
* `Padding.filter`, `Padding.find?`, `Padding.holder`: the scans through the children of an element;
* `Wire.read_of_additions`: what is read does not change, and if nothing is read, the error does
  not.
-/

namespace SignalTree
namespace Wire

open Xml (Markup Node)

/-! ## Padding -/

/-- The elements that the reader knows. -/
def knownTags : List String :=
  [valueTag, arrayTag, mapTag, restrictedTag, itemTag, signalTag, documentTag]

/-- The attributes that the reader knows. -/
def knownNames : List String :=
  [keyName, typeName, sizeName, descriptionName, prettyName, tierName, targetName, receiverName]

/-- The attributes of a tag that the reader knows. -/
def knownAttributes (attributes : List (String × String)) : List (String × String) :=
  attributes.filter fun a => knownNames.contains a.1

/-- What may be added to the content of an element from some child on. -/
inductive Room where
  /-- Nothing. -/
  | shut
  /-- Nothing before the element with the value. -/
  | waiting
  /-- Anything that is padding. -/
  | free
deriving DecidableEq

/-- The room inside an element. -/
def Room.inside (name : String) : Room :=
  if name = valueTag then waiting
  else if name ∈ [arrayTag, mapTag, restrictedTag, signalTag, documentTag] then free
  else shut

theorem Room.inside_unknown {name : String} (h : name ∉ knownTags) : inside name = shut := by
  simp only [knownTags, List.mem_cons, List.not_mem_nil, or_false, not_or] at h
  simp [inside, h]

/-- Whether an element says the kind of a value. -/
def isHolder (n : Node) : Bool := n.isElement && !n.isNamed restrictedTag

/-- The room after a child. -/
def Room.after (n : Node) : Room → Room
  | shut => shut
  | waiting => if isHolder n then free else waiting
  | free => free

/-- What may be added: an element that is not known; texts and remarks do not count either. -/
def isPadding : Node → Bool
  | .element name _ _ => !knownTags.contains name
  | _ => true

/-- The nodes of the first list stand in the second in order, each as `R` says, with padding between
them as far as there is room. -/
inductive Padding (R : Node → Node → Prop) : Room → List Node → List Node → Prop where
  | nil (r : Room) : Padding R r [] []
  | keep {r : Room} {n m : Node} {ns ms : List Node} (h : R n m)
      (hrest : Padding R (r.after n) ns ms) : Padding R r (n :: ns) (m :: ms)
  | add {m : Node} {ns ms : List Node} (hm : isPadding m = true)
      (hrest : Padding R .free ns ms) : Padding R .free ns (m :: ms)
  /-- Where there is room, a text may be taken apart by what is added. -/
  | loose {n : Node} {ns ms : List Node} (hn : n.isElement = false)
      (hrest : Padding R .free ns ms) : Padding R .free (n :: ns) ms

/-- The second tree is the first with padding and with attributes that are not known. -/
inductive Padded : Node → Node → Prop where
  | element {name : String} {as bs : List (String × String)} {ns ms : List Node}
      (hattributes : knownAttributes as = knownAttributes bs)
      (hchildren : Padding Padded (.inside name) ns ms) :
      Padded (.element name as ns) (.element name bs ms)
  | text (s : String) : Padded (.text s) (.text s)
  | remark : Padded .remark .remark

theorem isPadding_of_not_element {n : Node} (h : n.isElement = false) : isPadding n = true := by
  cases n with
  | element name attributes children => cases h
  | text s => rfl
  | remark => rfl

/-! ## Scans -/

namespace Padding

variable {R : Node → Node → Prop} {p : Node → Bool} {r : Room} {ns ms : List Node}

/-- A scan for elements that are no padding finds the same ones. -/
theorem filter (h : Padding R r ns ms) (hR : ∀ n m, R n m → p n = p m)
    (hpadding : ∀ n, isPadding n = true → p n = false) :
    List.Forall₂ (fun n m => R n m ∧ p n = true) (ns.filter p) (ms.filter p) := by
  induction h with
  | nil r => exact .nil
  | @keep r n m ns ms hnm _ ih =>
    rw [List.filter_cons, List.filter_cons, ← hR n m hnm]
    split
    · next hp => exact .cons ⟨hnm, hp⟩ ih
    · exact ih
  | @add m ns ms hm _ ih =>
    rw [List.filter_cons_of_neg (by simp [hpadding m hm])]
    exact ih
  | @loose n ns ms hn _ ih =>
    rw [List.filter_cons_of_neg (by simp [hpadding n (isPadding_of_not_element hn)])]
    exact ih

/-- So does a scan for the first one. -/
theorem find? (h : Padding R r ns ms) (hR : ∀ n m, R n m → p n = p m)
    (hpadding : ∀ n, isPadding n = true → p n = false) :
    Option.Rel R (ns.find? p) (ms.find? p) := by
  rw [← List.head?_filter, ← List.head?_filter]
  have hfilter := h.filter hR hpadding
  generalize ns.filter p = xs at hfilter
  generalize ms.filter p = ys at hfilter
  cases hfilter with
  | nil => exact .none
  | cons hxy _ => exact .some hxy.1

/-- In a value nothing is added before the element with its kind. -/
theorem holder (h : Padding R .waiting ns ms) (hR : ∀ n m, R n m → isHolder n = isHolder m) :
    Option.Rel R (ns.find? isHolder) (ms.find? isHolder) := by
  generalize hr : Room.waiting = r at h
  -- before the element with the kind there is no room, so that `keep` alone is left
  induction h with
  | nil r => exact .none
  | @keep r n m ns ms hnm _ ih =>
    subst hr
    rw [List.find?_cons, List.find?_cons, ← hR n m hnm]
    cases hholder : isHolder n with
    | true => exact .some hnm
    | false => exact ih (by simp [Room.after, hholder])
  | add _ _ _ => cases hr
  | loose _ _ _ => cases hr

/-- Where there is no room, a text at the start stays there. -/
theorem leadingText (h : Padding Padded .shut ns ms) (name : String)
    (as bs : List (String × String)) :
    (Node.element name as ns).leadingText = (Node.element name bs ms).leadingText := by
  cases h with
  | nil r => rfl
  | keep hnm _ =>
    cases hnm with
    | element _ _ => rfl
    | text s => rfl
    | remark => rfl

end Padding

/-! ## Elements -/

theorem lookup_known {attributes : List (String × String)} {name : String}
    (h : name ∈ knownNames) :
    (knownAttributes attributes).lookup name = attributes.lookup name := by
  induction attributes with
  | nil => rfl
  | cons a rest ih =>
    rcases a with ⟨k, v⟩
    rw [knownAttributes, List.filter_cons]
    by_cases hk : name = k
    · subst hk
      simp [h]
    · have hne : (name == k) = false := by simp [hk]
      split
      · rw [List.lookup_cons, List.lookup_cons, hne]
        exact ih
      · rw [List.lookup_cons, hne]
        exact ih

/-- Padding has no name that the reader knows. -/
theorem isNamed_padding {n : Node} (hn : isPadding n = true) {name : String}
    (hname : name ∈ knownTags) : n.isNamed name = false := by
  cases n with
  | element tag attributes children =>
    have hne : tag ≠ name := by
      rintro rfl
      simp [isPadding, hname] at hn
    simp [Node.isNamed, Node.name?, hne]
  | text s => rfl
  | remark => rfl

theorem name_of_isNamed {n : Node} {name : String} (h : n.isNamed name = true) :
    n.name = name := by
  rw [Node.isNamed, beq_iff_eq] at h
  rw [Node.name, h]
  rfl

namespace Padded

variable {n m : Node}

theorem name?_eq (h : Padded n m) : n.name? = m.name? := by
  cases h <;> rfl

theorem name_eq (h : Padded n m) : n.name = m.name := by
  rw [Node.name, Node.name, h.name?_eq]

theorem isElement_eq (h : Padded n m) : n.isElement = m.isElement := by
  rw [Node.isElement, Node.isElement, h.name?_eq]

theorem isNamed_eq (h : Padded n m) (name : String) : n.isNamed name = m.isNamed name := by
  rw [Node.isNamed, Node.isNamed, h.name?_eq]

theorem attribute?_eq (h : Padded n m) (name : String) (hname : name ∈ knownNames) :
    n.attribute? name = m.attribute? name := by
  cases h with
  | @element _ as bs _ _ hattributes _ =>
    change as.lookup name = bs.lookup name
    rw [← lookup_known hname, hattributes, lookup_known hname]
  | text s => rfl
  | remark => rfl

theorem children (h : Padded n m) : Padding Padded (.inside n.name) n.children m.children := by
  cases h with
  | element _ hchildren => exact hchildren
  | text s => exact .nil _
  | remark => exact .nil _

/-- The text of an element without room for padding stays the same. -/
theorem textOf_eq (h : Padded n m) (hroom : Room.inside n.name = .shut) : textOf n = textOf m := by
  cases h with
  | @element name as bs ns ms _ hchildren =>
    have hshut : Room.inside name = .shut := hroom
    rw [hshut] at hchildren
    rw [textOf, textOf, hchildren.leadingText name as bs]
  | text s => rfl
  | remark => rfl

/-- Two options that are alike are both empty, or hold an element and the same with padding. -/
theorem none_or_some {a b : Option Node} (h : Option.Rel Padded a b) :
    (a = none ∧ b = none) ∨ ∃ k l, a = some k ∧ b = some l ∧ Padded k l := by
  cases h with
  | none => exact .inl ⟨rfl, rfl⟩
  | some hkl => exact .inr ⟨_, _, rfl, rfl, hkl⟩

/-- The first child of a name that the reader knows. -/
theorem child? (h : Padded n m) (name : String) (hname : name ∈ knownTags) :
    Option.Rel Padded (n.child? name) (m.child? name) :=
  h.children.find? (fun _ _ hab => hab.isNamed_eq name) fun _ ha => isNamed_padding ha hname

end Padded

/-! ## Readers -/

/-- Two results are the same failure, or results that are alike. -/
inductive Alike {α : Type} (R : α → α → Prop) : Except Error α → Except Error α → Prop where
  | ok {a b : α} (h : R a b) : Alike R (.ok a) (.ok b)
  | error (e : Error) : Alike R (.error e) (.error e)

namespace Alike

variable {α β : Type} {R : α → α → Prop} {r s : Except Error α}

theorem map {S : β → β → Prop} {f : α → β} (h : Alike R r s)
    (hf : ∀ a b, R a b → S (f a) (f b)) : Alike S (r.map f) (s.map f) := by
  cases h with
  | ok hab => exact .ok (hf _ _ hab)
  | error e => exact .error e

theorem bind_eq {f : α → Except Error β} (h : Alike R r s) (hf : ∀ a b, R a b → f a = f b) :
    r >>= f = s >>= f := by
  cases h with
  | ok hab => exact hf _ _ hab
  | error e => rfl

end Alike

section Readers

variable {n m : Node}

theorem required_padded (h : Padded n m) (name : String) (hname : name ∈ knownNames) :
    required n name = required m name := by
  rw [required, required, h.attribute?_eq name hname, h.name_eq]

theorem readTier_padded (h : Padded n m) : readTier n = readTier m := by
  rw [readTier, readTier, h.attribute?_eq _ (by decide)]

/-- The items of a list, with the padding between them. -/
theorem itemsOf_padded (h : Padded n m) (name : String) (decode : String → Except Error Value) :
    itemsOf n name decode = itemsOf m name decode := by
  have hitems := h.children.filter (p := Node.isNamed itemTag)
    (fun _ _ hab => hab.isNamed_eq itemTag) fun _ ha => isNamed_padding ha (by decide)
  have htexts : (n.children.filter (Node.isNamed itemTag)).map textOf
      = (m.children.filter (Node.isNamed itemTag)).map textOf := by
    rw [← List.forall₂_eq_eq_eq, List.forall₂_map_left_iff, List.forall₂_map_right_iff]
    refine hitems.imp fun a b hab => hab.1.textOf_eq ?_
    rw [name_of_isNamed hab.2]
    decide
  rw [itemsOf, itemsOf, htexts, h.attribute?_eq _ (by decide)]

theorem readRestricted_padded (h : Padded n m) : readRestricted n = readRestricted m := by
  rw [readRestricted, readRestricted]
  rcases Padded.none_or_some (h.child? restrictedTag (by decide)) with
    ⟨hn, hm⟩ | ⟨k, l, hn, hm, hkl⟩
  · simp only [hn, hm]
  · simp only [hn, hm, required_padded hkl typeName (by decide), itemsOf_padded hkl]

theorem readMeta_padded (h : Padded n m) : readMeta n = readMeta m := by
  rw [readMeta, readMeta, readRestricted_padded h, readTier_padded h,
    h.attribute?_eq descriptionName (by decide),
    h.attribute?_eq prettyName (by decide)]

theorem readScalar_padded (h : Padded n m) (hname : n.name = valueTag) :
    readScalar n = readScalar m := by
  have hwaiting : Room.inside n.name = .waiting := by rw [hname]; rfl
  have hchildren := h.children
  rw [hwaiting] at hchildren
  have hholder : Option.Rel Padded
      (n.children.find? fun c => c.isElement && !c.isNamed restrictedTag)
      (m.children.find? fun c => c.isElement && !c.isNamed restrictedTag) :=
    hchildren.holder fun a b hab => by
      rw [isHolder, isHolder, hab.isElement_eq, hab.isNamed_eq]
  rw [readScalar, readScalar, readMeta_padded h]
  rcases Padded.none_or_some hholder with ⟨hn, hm⟩ | ⟨a, b, hn, hm, hab⟩
  · simp only [hn, hm]
  · simp only [hn, hm, ← hab.name_eq]
    cases hkind : ScalarKind.ofName? a.name with
    | none => rfl
    | some kind =>
      -- the names of kinds are not among those the reader knows otherwise
      have hunknown : a.name ∉ knownTags := by
        intro hmem
        have hnone : ∀ t ∈ knownTags, ScalarKind.ofName? t = none := by decide
        rw [hnone _ hmem] at hkind
        cases hkind
      have hshut : Room.inside a.name = .shut := Room.inside_unknown hunknown
      simp only [hab.textOf_eq hshut]

theorem readArray_padded (h : Padded n m) : readArray n = readArray m := by
  simp only [readArray, required_padded h typeName (by decide), itemsOf_padded h,
    readMeta_padded h]

theorem nestedEntry_padded (h : Padded n m) (f : Frame) : nestedEntry n f = nestedEntry m f := by
  have hchild : (n.child? restrictedTag).isNone = (m.child? restrictedTag).isNone := by
    rcases Padded.none_or_some (h.child? restrictedTag (by decide)) with
      ⟨hn, hm⟩ | ⟨k, l, hn, hm, -⟩
    · rw [hn, hm]
    · rw [hn, hm]
      rfl
  rw [nestedEntry, nestedEntry, h.attribute?_eq _ (by decide), hchild, readMeta_padded h]

theorem frameOf_padded (h : Padded n m) (tier : Option Tier) (entries : List (String × Entry)) :
    frameOf n tier entries = frameOf m tier entries := by
  rw [frameOf, frameOf, h.attribute?_eq _ (by decide)]

/-- Padding has no entry. -/
theorem readEntry_padding {n : Node} (h : isPadding n = true) : readEntry n = .ok none := by
  cases n with
  | element name attributes children =>
    have hname : name ∉ knownTags := by simpa [isPadding] using h
    simp only [knownTags, List.mem_cons, List.not_mem_nil, or_false, not_or] at hname
    rw [readEntry]
    simp [hname]
  | text s => rw [readEntry]; exact fun _ _ _ h => by cases h
  | remark => rw [readEntry]; exact fun _ _ _ h => by cases h

theorem readEntries_padding_cons {n : Node} (h : isPadding n = true) (ns : List Node) :
    readEntries (n :: ns) = readEntries ns := by
  rw [readEntries, readEntry_padding h]
  cases readEntries ns <;> rfl

/-- The entries of a frame; what is added next to them has none. -/
theorem readEntries_padding {r : Room} {ns ms : List Node} (h : Padding Padded r ns ms)
    (hentry : ∀ n ∈ ns, ∀ m, Padded n m → readEntry n = readEntry m) :
    readEntries ns = readEntries ms := by
  induction h with
  | nil r => rfl
  | @keep r n m ns ms hnm _ ih =>
    rw [readEntries, readEntries, hentry n (List.mem_cons_self ..) m hnm,
      ih fun k hk => hentry k (List.mem_cons_of_mem _ hk)]
  | @add m ns ms hm _ ih => rw [readEntries_padding_cons hm, ih hentry]
  | @loose n ns ms hn _ ih =>
    rw [readEntries_padding_cons (isPadding_of_not_element hn),
      ih fun k hk => hentry k (List.mem_cons_of_mem _ hk)]

theorem readEntry_padded {n m : Node} (h : Padded n m) : readEntry n = readEntry m := by
  have hnm := h
  cases h with
  | @element name as bs ns ms hattributes hchildren =>
    have hentries : readEntries ns = readEntries ms :=
      readEntries_padding hchildren fun k hk l hkl => readEntry_padded hkl
    rw [readEntry, readEntry]
    simp only [required_padded hnm keyName (by decide), readArray_padded hnm, readTier_padded hnm,
      hentries, nestedEntry_padded hnm, frameOf_padded hnm]
    by_cases hvalue : name = valueTag
    · simp only [readScalar_padded hnm hvalue]
    · simp only [if_neg hvalue]
  | text s => rfl
  | remark => rfl
termination_by sizeOf n

theorem readMap_padded {n m : Node} (h : Padded n m) : readMap n = readMap m := by
  have hentries : readEntries n.children = readEntries m.children :=
    readEntries_padding h.children fun _ _ _ hkl => readEntry_padded hkl
  simp only [readMap, readTier_padded h, hentries, frameOf_padded h]

theorem readMap?_padded {a b : Option Node} (h : Option.Rel Padded a b) :
    readMap? a = readMap? b := by
  cases h with
  | none => rfl
  | some hnm => exact readMap_padded hnm

theorem signalOf_padded {n m : Node} (h : Padded n m) : Alike Padded (signalOf n) (signalOf m) := by
  rw [signalOf, signalOf, ← h.isNamed_eq, ← h.isNamed_eq, ← h.name_eq]
  by_cases hroot : n.isNamed signalTag = true
  · rw [if_pos hroot, if_pos hroot]
    exact .ok h
  · rw [if_neg hroot, if_neg hroot]
    by_cases hdocument : n.isNamed documentTag = true
    · simp only [if_pos hdocument]
      rcases Padded.none_or_some (h.child? signalTag (by decide)) with
        ⟨hn, hm⟩ | ⟨a, b, hn, hm, hab⟩
      · rw [hn, hm]
        exact .error _
      · rw [hn, hm]
        exact .ok hab
    · simp only [if_neg hdocument]
      exact .error _

theorem mapOf_padded {n m : Node} (h : Padded n m) :
    Alike (Option.Rel Padded) (mapOf n) (mapOf m) := by
  rw [mapOf, mapOf, ← h.isNamed_eq]
  split
  · exact .ok (.some h)
  · exact (signalOf_padded h).map fun a b hab => hab.child? mapTag (by decide)

end Readers

/-- What is read of the signal of a document. -/
def documentOf (n : Node) : Except Error Document := do
  let frame ← readMap? (n.child? mapTag)
  return ⟨(n.attribute? targetName).getD "", (n.attribute? receiverName).getD "", frame⟩

theorem documentOf_padded {n m : Node} (h : Padded n m) : documentOf n = documentOf m := by
  rw [documentOf, documentOf, readMap?_padded (h.child? mapTag (by decide)),
    h.attribute?_eq targetName (by decide), h.attribute?_eq receiverName (by decide)]

/-! ## Additions, one after another -/

/-- An element of a name that the reader does not know. -/
def IsUnknown (m : Node) : Prop := m.isElement = true ∧ m.name ∉ knownTags

/-- Whether an element may be added behind some children of another one. -/
def HasRoom (tag : String) (before : List Node) : Prop :=
  tag ∈ [arrayTag, mapTag, restrictedTag, signalTag, documentTag] ∨
    (tag = valueTag ∧ ∃ k ∈ before, isHolder k = true)

/-- `Adds n m`: the tree `m` is `n` with one element or one attribute that is not known. -/
inductive Adds : Node → Node → Prop where
  | child {tag : String} {attributes : List (String × String)} {before after : List Node} {m : Node}
      (hroom : HasRoom tag before) (hm : IsUnknown m) :
      Adds (.element tag attributes (before ++ after))
        (.element tag attributes (before ++ m :: after))
  /-- An element in the middle of a text. -/
  | split {tag : String} {attributes : List (String × String)} {before after : List Node} {m : Node}
      {s first second : String} (hroom : HasRoom tag before) (hm : IsUnknown m) :
      Adds (.element tag attributes (before ++ .text s :: after))
        (.element tag attributes (before ++ .text first :: m :: .text second :: after))
  | inTag {tag : String} {before after : List (String × String)} {children : List Node}
      {name value : String} (hname : name ∉ knownNames) :
      Adds (.element tag (before ++ after) children)
        (.element tag (before ++ (name, value) :: after) children)
  /-- An addition anywhere inside a child, whatever the two elements are. -/
  | inside {tag : String} {attributes : List (String × String)} {before after : List Node}
      {n m : Node} (h : Adds n m) :
      Adds (.element tag attributes (before ++ n :: after))
        (.element tag attributes (before ++ m :: after))

/-- The room behind some children. -/
def Room.behind (r : Room) (ns : List Node) : Room := ns.foldl (fun r n => r.after n) r

theorem Room.behind_free (ns : List Node) : free.behind ns = free := by
  induction ns with
  | nil => rfl
  | cons n rest ih => exact ih

theorem Room.behind_waiting {ns : List Node} (h : ∃ k ∈ ns, isHolder k = true) :
    waiting.behind ns = free := by
  induction ns with
  | nil =>
    rcases h with ⟨k, hk, -⟩
    cases hk
  | cons n rest ih =>
    by_cases hn : isHolder n = true
    · have hafter : waiting.after n = free := by simp [after, hn]
      rw [behind, List.foldl_cons, hafter]
      exact behind_free rest
    · have hafter : waiting.after n = waiting := by simp [after, hn]
      rw [behind, List.foldl_cons, hafter]
      apply ih
      rcases h with ⟨k, hk, hholder⟩
      rcases List.mem_cons.1 hk with rfl | hk
      · exact absurd hholder hn
      · exact ⟨k, hk, hholder⟩

theorem HasRoom.behind_inside {tag : String} {before : List Node} (h : HasRoom tag before) :
    (Room.inside tag).behind before = .free := by
  rcases h with htag | ⟨rfl, hholder⟩
  · have hfree : Room.inside tag = .free := by
      have hvalue : tag ≠ valueTag := by
        rintro rfl
        exact absurd htag (by decide)
      rw [Room.inside, if_neg hvalue, if_pos htag]
    rw [hfree, Room.behind_free]
  · exact Room.behind_waiting hholder

theorem IsUnknown.isPadding {m : Node} (h : IsUnknown m) : isPadding m = true := by
  rcases h with ⟨-, hname⟩
  cases m with
  | element name attributes children =>
    have htag : name ∉ knownTags := hname
    simpa [Wire.isPadding] using htag
  | text s => rfl
  | remark => rfl

namespace Padding

variable {R : Node → Node → Prop} {r : Room} {ns ms : List Node}

theorem refl (hR : ∀ n ∈ ns, R n n) (r : Room) : Padding R r ns ns := by
  induction ns generalizing r with
  | nil => exact .nil r
  | cons n rest ih =>
    exact .keep (hR n (List.mem_cons_self ..)) (ih (fun k hk => hR k (List.mem_cons_of_mem _ hk)) _)

/-- What stands behind the same children. -/
theorem behind {front : List Node} (hR : ∀ n ∈ front, R n n)
    (h : Padding R (r.behind front) ns ms) : Padding R r (front ++ ns) (front ++ ms) := by
  induction front generalizing r with
  | nil => exact h
  | cons n rest ih =>
    exact .keep (hR n (List.mem_cons_self ..)) (ih (fun k hk => hR k (List.mem_cons_of_mem _ hk)) h)

end Padding

theorem Padded.refl (n : Node) : Padded n n := by
  match n with
  | .element name attributes children =>
    exact .element rfl (.refl (fun k hk => Padded.refl k) _)
  | .text s => exact .text s
  | .remark => exact .remark
termination_by sizeOf n

/-- A single addition is padding. -/
theorem Adds.padded {n m : Node} (h : Adds n m) : Padded n m := by
  induction h with
  | @child tag attributes before after m hroom hm =>
    refine .element rfl (.behind (fun k _ => .refl k) ?_)
    rw [hroom.behind_inside]
    exact .add hm.isPadding (.refl (fun k _ => .refl k) _)
  | @split tag attributes before after m s first second hroom hm =>
    -- the text goes, and its two parts come with the element between them
    refine .element rfl (.behind (fun k _ => .refl k) ?_)
    rw [hroom.behind_inside]
    exact .loose rfl (.add rfl (.add hm.isPadding (.add rfl (.refl (fun k _ => .refl k) _))))
  | @inTag tag before after children name value hname =>
    refine .element ?_ (.refl (fun k _ => .refl k) _)
    simp [knownAttributes, hname]
  | @inside tag attributes before after n m _ ih =>
    refine .element rfl (.behind (fun k _ => .refl k) ?_)
    exact .keep ih (.refl (fun k _ => .refl k) _)

/-- What does not tell a tree from one with padding does not change with any number of additions. -/
theorem eq_of_additions {α : Type} {f : Node → α} (hf : ∀ a b, Padded a b → f a = f b)
    {n m : Node} (h : Relation.ReflTransGen Adds n m) : f n = f m := by
  induction h with
  | refl => rfl
  | tail _ hadds ih => exact ih.trans (hf _ _ hadds.padded)

theorem readFrame_of_root {text : String} {n : Node} (hn : Xml.read text.toList = some n) :
    readFrame text = (mapOf n >>= readMap?) := by
  rw [readFrame, readRoot, hn]
  rfl

theorem readDocument_of_root {text : String} {n : Node} (hn : Xml.read text.toList = some n) :
    readDocument text = (signalOf n >>= documentOf) := by
  rw [readDocument, readRoot, hn]
  rfl

/-- Elements and attributes that the reader does not know are transparent: a document gives the same
frame and the same signal with and without them, or the same error. -/
theorem read_of_additions {text text' : String} {n n' : Node}
    (hn : Xml.read text.toList = some n) (hn' : Xml.read text'.toList = some n')
    (h : Relation.ReflTransGen Adds n n') :
    readFrame text' = readFrame text ∧ readDocument text' = readDocument text := by
  rw [readFrame_of_root hn, readFrame_of_root hn', readDocument_of_root hn,
    readDocument_of_root hn']
  constructor
  · symm
    refine eq_of_additions (f := fun n => mapOf n >>= readMap?) (fun a b hab => ?_) h
    exact (mapOf_padded hab).bind_eq fun _ _ => readMap?_padded
  · symm
    refine eq_of_additions (f := fun n => signalOf n >>= documentOf) (fun a b hab => ?_) h
    exact (signalOf_padded hab).bind_eq fun _ _ => documentOf_padded

/-- A flag under a key. -/
def flagMarkup : Markup :=
  .block mapTag [] [.block valueTag [(keyName, "a")] [.leaf "bool" [] "1"]]

/-- The same with two elements and an attribute that are not known. -/
def paddedFlagMarkup : Markup :=
  .block mapTag [] [.mark "x" [],
    .block valueTag [("by", "b"), (keyName, "a")] [.leaf "bool" [] "1", .mark "integer" []]]

theorem clean_flagMarkup : flagMarkup.Clean :=
  ⟨⟨by decide, by decide, by decide, by decide⟩, ⟨⟨by decide, by decide, by decide, by decide⟩,
    ⟨⟨by decide, by decide, by decide, by decide⟩, by decide⟩, trivial⟩, trivial⟩

theorem clean_paddedFlagMarkup : paddedFlagMarkup.Clean :=
  ⟨⟨by decide, by decide, by decide, by decide⟩, ⟨by decide, by decide, by decide, by decide⟩,
    ⟨⟨by decide, by decide, by decide, by decide⟩,
      ⟨⟨by decide, by decide, by decide, by decide⟩, by decide⟩,
      ⟨by decide, by decide, by decide, by decide⟩, trivial⟩, trivial⟩

/-- The gap before a line. -/
def gapText (depth : Nat) : Node := .text (String.ofList (Markup.gap depth))

/-- The tree of the frame, with what stands before the value, what its tag says besides the key, and
what stands after the flag. -/
def flagTree (before : List Node) (attributes : List (String × String)) (after : List Node) :
    Node :=
  .element mapTag [] (before ++ [
    .element valueTag (attributes ++ [(keyName, "a")])
      ([gapText 2, .element "bool" [] [.text "1"]] ++ after),
    gapText 0])

/-- Each element is added in a gap, which it takes apart. -/
theorem flag_additions :
    Relation.ReflTransGen Adds (flagMarkup.node 0) (paddedFlagMarkup.node 0) := by
  have hinteger : Adds (flagTree [gapText 1] [] [gapText 1])
      (flagTree [gapText 1] [] [gapText 2, .element "integer" [] [], gapText 1]) :=
    @Adds.inside _ _ [gapText 1] [gapText 0] _ _ (@Adds.split _ _ _ [] _ _ _ _
      (.inr ⟨rfl, _, List.mem_cons_of_mem _ (List.mem_cons_self ..), rfl⟩) ⟨rfl, by decide⟩)
  have hby : Adds (flagTree [gapText 1] [] [gapText 2, .element "integer" [] [], gapText 1])
      (flagTree [gapText 1] [("by", "b")] [gapText 2, .element "integer" [] [], gapText 1]) :=
    @Adds.inside _ _ [gapText 1] [gapText 0] _ _ (@Adds.inTag _ [] _ _ _ _ (by decide))
  have hx : Adds
      (flagTree [gapText 1] [("by", "b")] [gapText 2, .element "integer" [] [], gapText 1])
      (flagTree [gapText 1, .element "x" [] [], gapText 1] [("by", "b")]
        [gapText 2, .element "integer" [] [], gapText 1]) :=
    @Adds.split _ _ [] _ _ _ _ _ (.inl (by decide)) ⟨rfl, by decide⟩
  exact .tail (.tail (.single hinteger) hby) hx

/-- The frame is read from its text with and without the additions. -/
theorem read_flag_of_additions :
    Xml.read (flagMarkup.write 0) = some (flagMarkup.node 0) ∧
      Xml.read (paddedFlagMarkup.write 0) = some (paddedFlagMarkup.node 0) ∧
      readFrame (String.ofList (paddedFlagMarkup.write 0))
        = readFrame (String.ofList (flagMarkup.write 0)) := by
  have hflag := Xml.read_write_root clean_flagMarkup
  have hpadded := Xml.read_write_root clean_paddedFlagMarkup
  refine ⟨hflag, hpadded, ?_⟩
  have hread : Xml.read (String.ofList (flagMarkup.write 0)).toList = some (flagMarkup.node 0) := by
    rw [String.toList_ofList, hflag]
  have hread' : Xml.read (String.ofList (paddedFlagMarkup.write 0)).toList
      = some (paddedFlagMarkup.node 0) := by
    rw [String.toList_ofList, hpadded]
  exact (read_of_additions hread hread' flag_additions).1

end Wire
end SignalTree
