import Mathlib.Data.List.Infix
import SignalTree.Plan.Check
import SignalTree.Proofs.Uri
import SignalTree.Tree.Change

/-!
# Path — canonical forms of paths

The check of a plan knows no components, only texts: it puts every path into its canonical form and
compares it with those that were declared.  The canonical form says which names lead to a component
because no name holds a slash.

* `Tree.segments_append`: the pieces of two parts of a path are the pieces of the whole;
* `Tree.segments_intercalate`: the pieces of a path are the names that it was made of;
* `Tree.pathBody_eq_some_iff`: what is left of a path without its scheme;
* `Plan.pathOfNames_injective`: paths of different names differ;
* `Plan.pathBody_of_tree`: the two readings of a scheme agree, where the tree knows the scheme;
* `Plan.Walkable`: the paths that can be followed, piece by piece;
* `Plan.IsDirect`: the paths that do not go up.
-/

namespace SignalTree

namespace Tree

/-! ## Names -/

/-- What a valid name is made of. -/
theorem nameFault_eq_none_iff {name : String} :
    nameFault name = none ↔ name ≠ "" ∧ '/' ∉ name.toList ∧
    name ≠ "." ∧ name ≠ ".." ∧ ∀ c ∈ name.toList, Text.isBlank c = false := by
  by_cases hempty : name = ""
  · simp [nameFault, hempty]
  · by_cases hslash : '/' ∈ name.toList
    · simp [nameFault, hempty, hslash]
    · by_cases hdots : name = "." ∨ name = ".."
      · rcases hdots with rfl | rfl <;> simp [nameFault]
      · rw [not_or] at hdots
        simp [nameFault, hempty, hslash, hdots.1, hdots.2]

/-! ## Pieces -/

theorem segments_of_notMem {cs : List Char} (h : '/' ∉ cs) : segments cs = [cs] := by
  induction cs with
  | nil => rfl
  | cons c rest ih =>
    rw [List.mem_cons, not_or] at h
    have hc : c ≠ '/' := Ne.symm h.1
    rw [segments, if_neg hc, ih h.2]

theorem segments_ne_nil (cs : List Char) : segments cs ≠ [] := by
  cases cs with
  | nil => simp [segments]
  | cons c rest =>
    rw [segments]
    split
    · simp
    · split <;> simp

/-- A slash ends the pieces before it, and starts those after it. -/
theorem segments_append (cs rest : List Char) :
    segments (cs ++ '/' :: rest) = segments cs ++ segments rest := by
  induction cs with
  | nil => simp [segments]
  | cons c cs ih =>
    rw [List.cons_append, segments, segments, ih]
    by_cases hc : c = '/'
    · rw [if_pos hc, if_pos hc, List.cons_append]
    · rw [if_neg hc, if_neg hc]
      -- the character goes to the first piece, which there is
      cases hcs : segments cs with
      | nil => exact absurd hcs (segments_ne_nil cs)
      | cons first more => rfl

theorem segments_append_slash {cs : List Char} (h : '/' ∉ cs) (rest : List Char) :
    segments (cs ++ '/' :: rest) = cs :: segments rest := by
  rw [segments_append, segments_of_notMem h, List.singleton_append]

theorem notMem_of_mem_segments {cs s : List Char} (hs : s ∈ segments cs) : '/' ∉ s := by
  induction cs generalizing s with
  | nil =>
    have hnil : s = [] := by simpa [segments] using hs
    simp [hnil]
  | cons c rest ih =>
    by_cases hc : c = '/'
    · rw [segments, if_pos hc, List.mem_cons] at hs
      rcases hs with rfl | hs
      · simp
      · exact ih hs
    · rw [segments, if_neg hc] at hs
      cases hrest : segments rest with
      | nil =>
        have hsingle : s = [c] := by simpa [hrest] using hs
        rw [hsingle, List.mem_singleton]
        exact Ne.symm hc
      | cons first more =>
        rw [hrest] at hs ih
        rcases List.mem_cons.1 hs with rfl | hs
        · rw [List.mem_cons, not_or]
          exact ⟨Ne.symm hc, ih (List.mem_cons_self ..)⟩
        · exact ih (List.mem_cons_of_mem _ hs)

/-- The pieces of names with slashes between them are the names. -/
theorem segments_intercalate {names : List String} (hne : names ≠ [])
    (hnames : ∀ n ∈ names, '/' ∉ n.toList) :
    segments ("/".intercalate names).toList = names.map String.toList := by
  induction names with
  | nil => exact absurd rfl hne
  | cons n rest ih =>
    have hn := hnames n (List.mem_cons_self ..)
    by_cases hrest : rest = []
    · subst hrest
      rw [String.intercalate_singleton, segments_of_notMem hn]
      rfl
    · have hmore := ih hrest fun m hm => hnames m (List.mem_cons_of_mem _ hm)
      have htext : ("/".intercalate (n :: rest)).toList
          = n.toList ++ '/' :: ("/".intercalate rest).toList := by
        rw [String.intercalate_cons_of_ne_nil hrest]
        simp
      rw [htext, segments_append_slash hn, hmore, List.map_cons]

/-! ## Schemes -/

/-- The blanks around a path do not count.  What is left is read as it stands if it holds no colon,
and behind the scheme if it has the one of component paths. -/
theorem pathBody_eq_some_iff {path : String} {body : List Char} : pathBody path = some body ↔
    (':' ∉ Text.trim path.toList ∧ Text.trim path.toList = body) ∨
      Text.trim path.toList = Uri.componentScheme.toList ++ ':' :: body := by
  have hscheme : ':' ∉ Uri.componentScheme.toList := by decide
  rw [pathBody]
  generalize Text.trim path.toList = cs
  cases hsplit : Uri.splitColon cs with
  | none =>
    have hcolon : ':' ∉ cs := Uri.splitColon_eq_none hsplit
    have hother : cs ≠ Uri.componentScheme.toList ++ ':' :: body := by
      rintro rfl
      exact hcolon (by simp)
    simp [hcolon, hother]
  | some parts =>
    rcases parts with ⟨front, rest⟩
    have hparts : cs = front ++ ':' :: rest := Uri.splitColon_eq_some hsplit
    have hcolon : ':' ∈ cs := by simp [hparts]
    simp only [hcolon, not_true_eq_false, false_and, false_or]
    constructor
    · intro hread
      split at hread
      · rename_i hfront
        rw [hparts, hfront, Option.some.inj hread]
      · cases hread
    · intro heq
      rw [heq, Uri.splitColon_append hscheme] at hsplit
      cases hsplit
      exact if_pos rfl

end Tree

namespace Plan

/-! ## Names and paths -/

/-- A name that can be one piece of a path. -/
def IsSegment (name : String) : Prop := name ≠ "" ∧ '/' ∉ name.toList

theorem isSegment_of_nameFault {name : String} (h : Tree.nameFault name = none) :
    IsSegment name :=
  ⟨(Tree.nameFault_eq_none_iff.1 h).1, (Tree.nameFault_eq_none_iff.1 h).2.1⟩

/-- Paths of different names differ. -/
theorem pathOfNames_injective {names others : List String} (hnames : ∀ n ∈ names, IsSegment n)
    (hothers : ∀ n ∈ others, IsSegment n) (h : pathOfNames names = pathOfNames others) :
    names = others := by
  have htexts : "/".intercalate names = "/".intercalate others := by
    have hlists := congrArg String.toList h
    rw [pathOfNames, pathOfNames, String.toList_append, String.toList_append] at hlists
    exact String.toList_inj.1 (List.append_cancel_left hlists)
  -- the text is empty only if there are no names, since no name is empty
  have hempty : ∀ l : List String, (∀ n ∈ l, IsSegment n) → "/".intercalate l = "" → l = [] := by
    intro l hl htext
    by_contra hne
    have hsegments := Tree.segments_intercalate hne fun n hn => (hl n hn).2
    rw [htext] at hsegments
    cases l with
    | nil => exact hne rfl
    | cons n rest =>
      have hn : n.toList = [] := by
        have := List.cons.inj hsegments
        exact this.1.symm
      exact (hl n (List.mem_cons_self ..)).1 (String.toList_eq_nil_iff.1 hn)
  by_cases hne : names = []
  · subst hne
    exact (hempty others hothers htexts.symm).symm
  · have hne' : others ≠ [] := by
      rintro rfl
      exact hne (hempty names hnames htexts)
    have hleft := Tree.segments_intercalate hne fun n hn => (hnames n hn).2
    have hright := Tree.segments_intercalate hne' fun n hn => (hothers n hn).2
    rw [htexts, hright] at hleft
    exact (List.map_injective_iff.2 (fun _ _ => String.toList_inj.1) hleft).symm

/-- A name under a path is the last name of its path. -/
theorem join_pathOfNames {names : List String} (hnames : ∀ n ∈ names, IsSegment n) (name : String) :
    Tree.join (pathOfNames names) name = pathOfNames (names ++ [name]) := by
  by_cases hne : names = []
  · subst hne
    have hslash : (pathOfNames []).toList.getLast? = some '/' := by decide
    rw [Tree.join, if_pos hslash]
    simp [pathOfNames]
  · -- the last character of the path is the last one of the last name
    have hlast : (pathOfNames names).toList.getLast? ≠ some '/' := by
      rcases List.eq_nil_or_concat names with hnil | ⟨front, n, rfl⟩
      · exact absurd hnil hne
      · have hn := hnames n (by simp)
        rcases List.exists_cons_of_ne_nil fun h => hn.1 (String.toList_eq_nil_iff.1 h) with
          ⟨c, cs, hcs⟩
        have htail : ∃ before, (pathOfNames (front.concat n)).toList = before ++ n.toList := by
          by_cases hfront : front = []
          · subst hfront
            exact ⟨"cpath:/".toList, by simp [pathOfNames]⟩
          · refine ⟨(("cpath:/" ++ "/".intercalate front) ++ "/").toList, ?_⟩
            rw [pathOfNames, List.concat_eq_append,
              String.intercalate_append_of_ne_nil hfront (by simp)]
            simp
        rcases htail with ⟨before, hbefore⟩
        intro h
        rw [hbefore, List.getLast?_append, hcs, List.getLast?_cons] at h
        apply hn.2
        rw [hcs]
        have hmem : '/' = (c :: cs).getLast (by simp) := by
          rw [List.getLast_eq_getLastD]
          simpa using h.symm
        rw [hmem]
        exact List.getLast_mem _
    rw [Tree.join, if_neg hlast, pathOfNames, pathOfNames,
      String.intercalate_append_of_ne_nil hne (by simp)]
    simp [String.append_assoc]

/-! ## Canonical forms -/

theorem reduce_cons (stack : List (List Char)) (segment : List Char) (rest : List (List Char)) :
    reduce stack (segment :: rest) = (reduce stack [segment]).bind fun s => reduce s rest := by
  by_cases hstay : segment = [] ∨ segment = ['.']
  · cases stack <;> simp [reduce, hstay]
  · by_cases hup : segment = ['.', '.']
    · cases stack <;> simp [reduce, hup]
    · cases stack <;> simp [reduce, hstay, hup]

theorem reduce_append (stack front back : List (List Char)) :
    reduce stack (front ++ back) = (reduce stack front).bind fun s => reduce s back := by
  induction front generalizing stack with
  | nil => simp [reduce]
  | cons segment front ih =>
    rw [List.cons_append, reduce_cons, reduce_cons stack segment front, Option.bind_assoc]
    exact Option.bind_congr fun s _ => ih s

/-- The tree reads a path as the check does, unless it takes what stands before a colon for a
foreign scheme. -/
theorem pathBody_of_tree {path : String} {body : List Char} (h : Tree.pathBody path = some body) :
    pathBody path = body := by
  rcases Tree.pathBody_eq_some_iff.1 h with ⟨hcolon, hbody⟩ | hbody
  · have hscheme : (Uri.componentScheme.toList ++ [':']).isPrefixOf (Text.trim path.toList)
        = false := by
      rw [← Bool.not_eq_true, List.isPrefixOf_iff_prefix]
      intro hpre
      exact hcolon (hpre.subset (by simp))
    rw [pathBody, hscheme, ← hbody]
    rfl
  · rw [pathBody, hbody]
    rfl

/-- The path can be followed, piece by piece, among the declared ones: it has no foreign scheme, and
each front part of it leads to a declared path. -/
def Walkable (declared : List String) (path : String) : Prop :=
  ∃ body, Tree.pathBody path = some body ∧ ∀ front, front <+: Tree.segments body →
    ∃ stack, reduce [] front = some stack ∧
      pathOfNames (stack.reverse.map String.ofList) ∈ declared

/-! ## Direct paths -/

/-- A path that the tree reads, and that does not go up. -/
def IsDirect (path : String) : Prop :=
  ∃ body, Tree.pathBody path = some body ∧ ['.', '.'] ∉ Tree.segments body

/-- Pieces that do not go up add to the stack. -/
theorem reduce_direct {l : List (List Char)} (h : ['.', '.'] ∉ l) (stack : List (List Char)) :
    ∃ more, reduce stack l = some (more ++ stack) := by
  induction l generalizing stack with
  | nil => exact ⟨[], by simp [reduce]⟩
  | cons segment rest ih =>
    rw [List.mem_cons, not_or] at h
    have hup : segment ≠ ['.', '.'] := Ne.symm h.1
    by_cases hstay : segment = [] ∨ segment = ['.']
    · rcases ih h.2 stack with ⟨more, hmore⟩
      exact ⟨more, by cases stack <;> simpa [reduce, hstay] using hmore⟩
    · rcases ih h.2 (segment :: stack) with ⟨more, hmore⟩
      refine ⟨more ++ [segment], ?_⟩
      rw [List.append_assoc, List.singleton_append, ← hmore]
      cases stack <;> simp [reduce, hstay, hup]

end Plan
end SignalTree
