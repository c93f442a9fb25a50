import SignalTree.Proofs.Tree.Removal

/-!
# Walk — paths that are followed in parts

A path may be followed in parts, each from where the part before it has led to, and it makes no
difference how many pieces of it stay where they are.  Only the start of a path counts: a slash in
front leads to the root, and what stands before a colon is a scheme.

* `Tree.PlainPath`: the paths without a colon and without blanks at their ends;
* `Tree.Padded`: a path with more pieces in it that stay where they are;
* `Grown.route_join_iff`: a path of two parts leads where its parts lead, one after the other;
* `Padded.route_iff`: a padded path leads where the path leads;
* `Rooted.resolve_child`, `resolve_parent`: the names of children and `..` undo each other;
* `World.resolve_join_of_course`: all of this, after every course.
-/

namespace SignalTree

variable {σ η : Type}

namespace Tree

variable {t : Tree σ η} {id k m origin : NodeId} {c : Component σ η} {p q x y s : String}
  {piece : List Char} {pieces front back : List (List Char)}

/-! ## Plain paths -/

/-- A path that is read as it stands: it has no colon, and no blanks at its ends. -/
structure PlainPath (p : String) : Prop where
  no_colon : ':' ∉ p.toList
  starts : ∀ ch, p.toList.head? = some ch → Text.isBlank ch = false
  ends : ∀ ch, p.toList.getLast? = some ch → Text.isBlank ch = false

theorem PlainPath.pathBody (h : PlainPath p) : pathBody p = some p.toList := by
  have htrim : Text.trim p.toList = p.toList := Text.trim_of_ends h.starts h.ends
  rw [pathBody_eq_some_iff, htrim]
  exact Or.inl ⟨h.no_colon, rfl⟩

/-- A plain path is resolved to what it leads to. -/
theorem PlainPath.resolve_iff (h : PlainPath p) :
    t.resolve origin p = .ok k ↔ t.Route origin p.toList k := by
  rw [resolve_eq_ok_iff_route, h.pathBody]
  simp

theorem PlainPath.of_no_blank (hcolon : ':' ∉ p.toList)
    (hblank : ∀ ch ∈ p.toList, Text.isBlank ch = false) : PlainPath p where
  no_colon := hcolon
  starts ch hch := hblank ch (List.mem_of_mem_head? hch)
  ends ch hch := hblank ch (List.mem_of_mem_getLast? hch)

theorem PlainPath.of_graphic (hcolon : ':' ∉ p.toList)
    (hgraphic : p.toList.all (fun ch => decide (Text.IsGraphic ch)) = true) : PlainPath p :=
  .of_no_blank hcolon fun _ hch => (Text.isGraphic_of_all hgraphic hch).not_blank

theorem toList_join (x y : String) : (x ++ "/" ++ y).toList = x.toList ++ '/' :: y.toList := by
  simp

/-- The start of a path is the start of its first part, and its end is that of the last one. -/
theorem plainPath_join_iff : PlainPath (x ++ "/" ++ y) ↔
    (':' ∉ x.toList ∧ ∀ ch, x.toList.head? = some ch → Text.isBlank ch = false) ∧
      ':' ∉ y.toList ∧ ∀ ch, y.toList.getLast? = some ch → Text.isBlank ch = false := by
  -- a part may be empty, and then the slash is what the path starts or ends with
  have hslash : Text.isBlank '/' = false := by decide
  have hstart : (∀ ch, (x.toList ++ '/' :: y.toList).head? = some ch → Text.isBlank ch = false) ↔
      ∀ ch, x.toList.head? = some ch → Text.isBlank ch = false := by
    cases x.toList <;> simp [hslash]
  have hend : (∀ ch, (x.toList ++ '/' :: y.toList).getLast? = some ch → Text.isBlank ch = false) ↔
      ∀ ch, y.toList.getLast? = some ch → Text.isBlank ch = false := by
    rcases List.eq_nil_or_concat y.toList with hy | ⟨before, last, hy⟩
    · simp [hy, hslash]
    · simp [hy, List.getLast?_append, List.getLast?_cons]
  have hcolon : ':' ∉ x.toList ++ '/' :: y.toList ↔ ':' ∉ x.toList ∧ ':' ∉ y.toList := by simp
  rw [← hstart, ← hend]
  constructor
  · rintro ⟨hno, hs, he⟩
    rw [toList_join] at hno hs he
    exact ⟨⟨(hcolon.1 hno).1, hs⟩, (hcolon.1 hno).2, he⟩
  · rintro ⟨⟨hx, hs⟩, hy, he⟩
    rw [← toList_join] at hs he
    exact ⟨by rw [toList_join]; exact hcolon.2 ⟨hx, hy⟩, hs, he⟩

theorem PlainPath.join (hp : PlainPath p) (hq : PlainPath q) : PlainPath (p ++ "/" ++ q) :=
  plainPath_join_iff.2 ⟨⟨hp.no_colon, hp.starts⟩, hq.no_colon, hq.ends⟩

/-! ## Two parts -/

/-- A path of two parts leads where the second part leads from where the first has led to.  The
second part does not start at the root, so it needs a component to start from. -/
theorem Grown.route_join_iff (h : t.Grown) {p q : List Char} (hp : p ≠ [])
    (hq : q.head? ≠ some '/') :
    t.Route origin (p ++ '/' :: q) k ↔ ∃ m, t.Route origin p m ∧ t.Route m q k := by
  have hhead : (p ++ '/' :: q).head? = p.head? := List.head?_append_of_ne_nil p hp
  have hback : ∀ m, t.contains m = true → (t.Route m q k ↔ t.Leads m (segments q) k) := by
    intro m hm
    rw [Route, if_neg hq, and_iff_right hm]
  by_cases hslash : p.head? = some '/'
  · have hfront : ∀ m, t.Route origin p m ↔ t.Leads t.root (segments p) m := by
      intro m
      rw [Route, if_pos hslash]
    calc t.Route origin (p ++ '/' :: q) k
        ↔ t.Leads t.root (segments p ++ segments q) k := by
          rw [Route, hhead, if_pos hslash, segments_append]
      _ ↔ ∃ m, t.Leads t.root (segments p) m ∧ t.Leads m (segments q) k := leads_append_iff
      _ ↔ ∃ m, t.Route origin p m ∧ t.Route m q k := exists_congr fun m => by
          rw [hfront]
          exact and_congr_right fun hm =>
            (hback m (h.contains_of_leads h.contains_root hm)).symm
  · have hfront : ∀ m, t.Route origin p m ↔
        t.contains origin = true ∧ t.Leads origin (segments p) m := by
      intro m
      rw [Route, if_neg hslash]
    calc t.Route origin (p ++ '/' :: q) k
        ↔ t.contains origin = true ∧ t.Leads origin (segments p ++ segments q) k := by
          rw [Route, hhead, if_neg hslash, segments_append]
      _ ↔ ∃ m, (t.contains origin = true ∧ t.Leads origin (segments p) m) ∧
            t.Leads m (segments q) k := by
          rw [leads_append_iff, ← exists_and_left]
          exact exists_congr fun m => and_assoc.symm
      _ ↔ ∃ m, t.Route origin p m ∧ t.Route m q k := exists_congr fun m => by
          rw [hfront]
          exact and_congr_right fun hm => (hback m (h.contains_of_leads hm.1 hm.2)).symm

/-- Resolving a path of two parts is resolving the parts, one after the other. -/
theorem Grown.resolve_join_iff (h : t.Grown) (hp : PlainPath p) (hq : PlainPath q) (hne : p ≠ "")
    (hslash : q.toList.head? ≠ some '/') :
    t.resolve origin (p ++ "/" ++ q) = .ok k ↔
      ∃ m, t.resolve origin p = .ok m ∧ t.resolve m q = .ok k := by
  have hnil : p.toList ≠ [] := mt String.toList_eq_nil_iff.1 hne
  rw [(hp.join hq).resolve_iff, toList_join, h.route_join_iff hnil hslash]
  exact exists_congr fun m => and_congr hp.resolve_iff.symm hq.resolve_iff.symm

/-! ## Pieces that stay -/

/-- A piece of a path that stays where it is. -/
def IsStay (s : String) : Prop := s = "" ∨ s = "."

theorem IsStay.no_slash (h : IsStay s) : '/' ∉ s.toList := by
  rcases h with rfl | rfl <;> decide

theorem IsStay.no_colon (h : IsStay s) : ':' ∉ s.toList := by
  rcases h with rfl | rfl <;> decide

theorem IsStay.plainPath (h : IsStay s) : PlainPath s := by
  rcases h with rfl | rfl
  · exact .of_graphic (by decide) (by decide)
  · exact .of_graphic (by decide) (by decide)

theorem leads_stay_iff (hs : IsStay s) :
    t.Leads id (s.toList :: pieces) k ↔ t.Leads id pieces k := by
  have hstay : s.toList = [] ∨ s.toList = ['.'] := by
    rcases hs with rfl | rfl
    · exact Or.inl rfl
    · exact Or.inr rfl
  constructor
  · intro h
    cases h with
    | go hstep hrest =>
      rw [Goes, if_pos hstay] at hstep
      exact hstep ▸ hrest
  · intro h
    exact .go (by rw [Goes, if_pos hstay]) h

/-- The path `p` with more pieces in it that stay where they are, each after another piece. -/
inductive Padded (p : String) : String → Prop where
  | refl : Padded p p
  | between {x y s : String} (hs : IsStay s) :
      Padded p (x ++ "/" ++ y) → Padded p (x ++ "/" ++ s ++ "/" ++ y)
  | behind {x s : String} (hs : IsStay s) : Padded p x → Padded p (x ++ "/" ++ s)

namespace Padded

/-- One more piece between two others makes no difference. -/
theorem route_between_iff (hs : IsStay s) (x y : String) :
    t.Route origin (x ++ "/" ++ s ++ "/" ++ y).toList k ↔
      t.Route origin (x ++ "/" ++ y).toList k := by
  have hhead : (x ++ "/" ++ s ++ "/" ++ y).toList.head? = (x ++ "/" ++ y).toList.head? := by
    cases hx : x.toList <;> simp [hx]
  have hsegments : segments (x ++ "/" ++ s ++ "/" ++ y).toList =
      segments x.toList ++ s.toList :: segments y.toList := by
    rw [toList_join, toList_join, segments_append, segments_append, segments_of_notMem hs.no_slash]
    simp
  have hleads : ∀ id, t.Leads id (segments (x ++ "/" ++ s ++ "/" ++ y).toList) k ↔
      t.Leads id (segments (x ++ "/" ++ y).toList) k := by
    intro id
    rw [hsegments, toList_join, segments_append, leads_append_iff, leads_append_iff]
    exact exists_congr fun j => and_congr_right fun _ => leads_stay_iff hs
  rw [Route, Route, hhead, hleads, hleads]

/-- Nor does one more at the end, unless the path is empty: then it would start at the root. -/
theorem route_behind_iff (hs : IsStay s) (hx : x ≠ "") :
    t.Route origin (x ++ "/" ++ s).toList k ↔ t.Route origin x.toList k := by
  have hhead : (x ++ "/" ++ s).toList.head? = x.toList.head? := by
    rw [toList_join]
    exact List.head?_append_of_ne_nil _ (mt String.toList_eq_nil_iff.1 hx)
  have hleads : ∀ id, t.Leads id (segments (x ++ "/" ++ s).toList) k ↔
      t.Leads id (segments x.toList) k := by
    intro id
    rw [toList_join, segments_append, segments_of_notMem hs.no_slash, leads_append_iff]
    constructor
    · rintro ⟨j, hj, hstay⟩
      rw [leads_stay_iff hs] at hstay
      cases hstay
      exact hj
    · intro hk
      exact ⟨k, hk, (leads_stay_iff hs).2 (.arrive k)⟩
  rw [Route, Route, hhead, hleads, hleads]

theorem ne_empty (h : Padded p q) (hne : p ≠ "") : q ≠ "" := by
  cases h with
  | refl => exact hne
  | between _ _ => simp
  | behind _ _ => simp

/-- A padded path is plain if the path is. -/
theorem plainPath (h : Padded p q) (hp : PlainPath p) : PlainPath q := by
  induction h with
  | refl => exact hp
  | @between x y s hs _ ih =>
    rw [plainPath_join_iff] at ih ⊢
    rcases ih with ⟨⟨hx, hstart⟩, hend⟩
    have hxs : PlainPath (x ++ "/" ++ s) :=
      plainPath_join_iff.2 ⟨⟨hx, hstart⟩, hs.no_colon, hs.plainPath.ends⟩
    exact ⟨⟨hxs.no_colon, hxs.starts⟩, hend⟩
  | behind hs _ ih => exact ih.join hs.plainPath

/-- A padded path leads where the path leads. -/
theorem route_iff (h : Padded p q) (hne : p ≠ "") :
    t.Route origin q.toList k ↔ t.Route origin p.toList k := by
  induction h with
  | refl => exact Iff.rfl
  | between hs _ ih => exact (route_between_iff hs _ _).trans ih
  | behind hs hx ih => exact (route_behind_iff hs (hx.ne_empty hne)).trans ih

theorem resolve_iff (h : Padded p q) (hp : PlainPath p) (hne : p ≠ "") :
    t.resolve origin q = .ok k ↔ t.resolve origin p = .ok k := by
  rw [(h.plainPath hp).resolve_iff, hp.resolve_iff, h.route_iff hne]

end Padded

/-! ## Parents and children -/

/-- The name of a child leads to it from its parent. -/
theorem Rooted.resolve_child (h : t.Rooted) (hc : t.get? k = some c) (hm : c.parent = some m)
    (hcolon : ':' ∉ c.name.toList) : t.resolve m c.name = .ok k := by
  have hne : k ≠ t.root := by
    rintro rfl
    rw [h.root_orphan c hc] at hm
    cases hm
  rcases h.owned k c hc hne with ⟨hvalid, p, pc, hp, _, hpc, hchild⟩
  obtain rfl : m = p := Option.some.inj (hm.symm.trans hp)
  rcases nameFault_eq_none_iff.1 hvalid with ⟨_, hslash, _, _, hblank⟩
  have hhead : c.name.toList.head? ≠ some '/' := fun hhead => hslash (List.mem_of_mem_head? hhead)
  rw [(PlainPath.of_no_blank hcolon hblank).resolve_iff, Route, if_neg hhead,
    segments_of_notMem hslash]
  exact ⟨contains_iff.2 ⟨pc, hpc⟩, .go (Names.goes_of_child? hvalid hpc hchild) (.arrive k)⟩

/-- Two dots lead from a component to its parent. -/
theorem resolve_parent (hc : t.get? k = some c) (hm : c.parent = some m) :
    t.resolve k ".." = .ok m := by
  have hplain : PlainPath ".." := .of_graphic (by decide) (by decide)
  have hgo : t.Goes k ['.', '.'] m := by
    rw [Goes, if_neg (by decide)]
    exact ⟨c, hc, by rw [if_pos rfl]; exact hm⟩
  rw [hplain.resolve_iff, Route, if_neg (by decide)]
  exact ⟨contains_iff.2 ⟨c, hc⟩, .go hgo (.arrive m)⟩

end Tree

/-! ## Courses -/

namespace World

variable {w : World σ η}

/-- After every course a path of two parts is resolved by resolving the first part, and the second
from there; pieces that stay where they are may be put in behind the first piece, and make no
difference; the name of a child leads from its parent to it, and two dots lead back.  What a path is
resolved to is always there, and from a component that is there nothing else can go wrong than that
the path is not found. -/
theorem resolve_join_of_course {rootName : String} {registry : Registry σ η} {env : Env σ}
    (hregistry : registry.Bare) (h : Course AddsBare ⟨Tree.new rootName registry, env⟩ w) :
    (∀ origin p q, Tree.PlainPath p → Tree.PlainPath q → p ≠ "" → q.toList.head? ≠ some '/' →
      ∀ k, w.tree.resolve origin (p ++ "/" ++ q) = .ok k ↔
        ∃ m, w.tree.resolve origin p = .ok m ∧ w.tree.resolve m q = .ok k) ∧
    (∀ origin p q, Tree.PlainPath p → p ≠ "" → Tree.Padded p q →
      ∀ k, w.tree.resolve origin q = .ok k ↔ w.tree.resolve origin p = .ok k) ∧
    (∀ m k c, w.tree.get? k = some c → c.parent = some m → ':' ∉ c.name.toList →
      w.tree.resolve m c.name = .ok k ∧ w.tree.resolve k ".." = .ok m) ∧
    ∀ origin path,
      (∀ k, w.tree.resolve origin path = .ok k → w.tree.contains k = true) ∧
      (w.tree.contains origin = true → ∀ e, w.tree.resolve origin path = .error e →
        e = .notFound path) := by
  have hgrown : w.tree.Grown := (h.direct (.new rootName hregistry)).grown
  have hrooted : w.tree.Rooted := h.rooted (.new rootName registry)
  refine ⟨?_, ?_, ?_, ?_⟩
  · intro origin p q hp hq hne hslash k
    exact hgrown.resolve_join_iff hp hq hne hslash
  · intro origin p q hp hne hpadded k
    exact hpadded.resolve_iff hp hne
  · intro m k c hc hm hcolon
    exact ⟨hrooted.resolve_child hc hm hcolon, Tree.resolve_parent hc hm⟩
  · intro origin path
    exact ⟨fun k => hgrown.contains_of_resolve, fun hid e => hgrown.resolve_eq_error hid⟩

/-- From the component beside a branch to its end and back, with and without pieces that stay. -/
theorem resolve_join_branchWorld :
    (Registry.standard : Registry Unit Unit).Bare ∧ Course AddsBare rootAlone branchWorld ∧
      Tree.PlainPath "../a" ∧ Tree.PlainPath "./b" ∧ Tree.Padded "../a" ".././a/" ∧
      branchWorld.tree.resolve 3 ("../a" ++ "/" ++ "./b") = .ok 2 ∧
      branchWorld.tree.resolve 3 ".././a/" = .ok 1 ∧
      branchWorld.tree.resolve 1 "b" = .ok 2 ∧ branchWorld.tree.resolve 2 ".." = .ok 1 ∧
      branchWorld.tree.resolve 3 "../.." = .error (.notFound "../..") := by
  have hcourse : Course AddsBare rootAlone branchWorld :=
    Course.performAll (by simp [branchActions, Action.Direct])
  have hup : Tree.PlainPath "../a" := .of_graphic (by decide) (by decide)
  have hdown : Tree.PlainPath "./b" := .of_graphic (by decide) (by decide)
  have hpadded : Tree.Padded "../a" ".././a/" :=
    .behind (Or.inl rfl) (.between (x := "..") (y := "a") (Or.inr rfl) .refl)
  rcases resolve_join_of_course Registry.bare_standard hcourse with ⟨hjoin, hpad, hchild, hfound⟩
  rcases hchild 1 2 _ rfl rfl (by decide) with ⟨hb, hparent⟩
  refine ⟨Registry.bare_standard, hcourse, hup, hdown, hpadded, ?_, ?_, hb, hparent, ?_⟩
  · exact (hjoin 3 _ _ hup hdown (by decide) (by decide) 2).2 ⟨1, rfl, rfl⟩
  · exact (hpad 3 _ _ hup (by decide) hpadded 1).2 rfl
  · -- there is nothing above the root
    cases hresolve : branchWorld.tree.resolve 3 "../.." with
    | ok k => cases hresolve
    | error e => rw [(hfound 3 "../..").2 rfl e hresolve]

end World
end SignalTree
