import Mathlib
import SignalTree.Dispatch
import SignalTree.Proofs.Keyed
import SignalTree.Proofs.Tree.Lookup

/-!
# Signature — the description of the arguments is built once

A signal builds the description of its arguments when it is first asked for, keeps it, and hands out
copies under the labels of those who ask.  A failure is not kept, and another builder makes the
signal forget what it had.  Those who hold copies may do with them what they like.

* `Signal.Use`, `Signal.Event`: a signal, the copies it gave out and what may happen to them;
* `Signal.Answered`: the answers of a builder, which are failures up to one success, and then copies
  of that;
* `Use.answered_of_builder`: what a signal answers from the moment it has a builder;
* `Use.answered_since`: what it answers since it got its last builder, after all that happened;
* `World.signature_eq_answer`: a component in a tree answers as its signal does.
-/

namespace SignalTree
namespace Signal

variable {σ η : Type}

/-! ## One question -/

section Question

variable {s : Signal σ η} {b : SignatureBuilder σ} {o : Settings σ} {owner : String}
  {env env' : Env σ}

/-- What is kept is copied. -/
theorem buildSignature_of_built (h : s.built = some o) :
    s.buildSignature owner env = (.ok { o with owner }, s, env) := by
  simp [buildSignature, h]

/-- A failure is not kept. -/
theorem buildSignature_of_failed {e : Error} (hb : s.signature = some b) (hnone : s.built = none)
    (hrun : b (.empty owner) env = (.error e, env')) :
    s.buildSignature owner env = (.error e, s, env') := by
  simp [buildSignature, hb, hnone, hrun]

/-- A description is kept as it was built. -/
theorem buildSignature_of_made (hb : s.signature = some b) (hnone : s.built = none)
    (hrun : b (.empty owner) env = (.ok o, env')) :
    s.buildSignature owner env = (.ok { o with owner }, { s with built := some o }, env') := by
  simp [buildSignature, hb, hnone, hrun]

end Question

/-! ## A signal in use -/

/-- A signal, the descriptions it gave out, and the surroundings. -/
structure Use (σ η : Type) where
  signal : Signal σ η
  held : List (Settings σ)
  env : Env σ

inductive Event (σ : Type) where
  /-- The description is asked for, under a label. -/
  | ask (owner : String)
  /-- The signal gets another builder. -/
  | replaceBuilder (b : SignatureBuilder σ)
  /-- The descriptions that were given out are changed, and with them the surroundings. -/
  | edit (f : List (Settings σ) → Env σ → List (Settings σ) × Env σ)

/-- The label under which an event asks for the description. -/
def Event.asked : Event σ → Option String
  | ask owner => some owner
  | _ => none

/-- The signal keeps its builder. -/
def Event.Keeps : Event σ → Prop
  | replaceBuilder _ => False
  | _ => True

/-- What was answered, and what the signal keeps from then on. -/
structure Answer (σ : Type) where
  owner : String
  before : Env σ
  result : Except Error (Settings σ)
  kept : Option (Settings σ)
  after : Env σ

namespace Use

def answer (u : Use σ η) (owner : String) : Answer σ :=
  let (result, signal, env) := u.signal.buildSignature owner u.env
  ⟨owner, u.env, result, signal.built, env⟩

def step (u : Use σ η) : Event σ → Use σ η
  | .ask owner =>
    let (result, signal, env) := u.signal.buildSignature owner u.env
    ⟨signal, u.held ++ result.toOption.toList, env⟩
  | .replaceBuilder b => { u with signal := u.signal.withSignature b }
  | .edit f =>
    let (held, env) := f u.held u.env
    { u with held, env }

/-- What becomes of a signal in use. -/
def after (u : Use σ η) (events : List (Event σ)) : Use σ η := events.foldl step u

/-- What the signal answers, in order. -/
def answers (u : Use σ η) : List (Event σ) → List (Answer σ)
  | [] => []
  | e :: rest => (e.asked.map u.answer).toList ++ (u.step e).answers rest

theorem answers_append (u : Use σ η) (earlier later : List (Event σ)) :
    u.answers (earlier ++ later) = u.answers earlier ++ (u.after earlier).answers later := by
  induction earlier generalizing u with
  | nil => rfl
  | cons e rest ih =>
    have hrest := ih (u.step e)
    simp only [List.cons_append, answers, hrest, List.append_assoc]
    rfl

theorem after_append (u : Use σ η) (earlier later : List (Event σ)) :
    u.after (earlier ++ later) = (u.after earlier).after later :=
  List.foldl_append

/-- Every question is answered, under its label. -/
theorem owner_answers (u : Use σ η) (events : List (Event σ)) :
    (u.answers events).map Answer.owner = events.filterMap Event.asked := by
  induction events generalizing u with
  | nil => rfl
  | cons e rest ih =>
    have hrest := ih (u.step e)
    cases e with
    | ask owner => exact congrArg (owner :: ·) hrest
    | replaceBuilder b => exact hrest
    | edit f => exact hrest

/-- What is measured in the surroundings changes where questions are answered, if it does not where
descriptions are changed. -/
theorem count_after {count : Env σ → Nat} (u : Use σ η) {events : List (Event σ)}
    (hedit : ∀ f, .edit f ∈ events → ∀ held env, count (f held env).2 = count env) :
    count (u.after events).env + ((u.answers events).map fun a => count a.before).sum =
      count u.env + ((u.answers events).map fun a => count a.after).sum := by
  induction events generalizing u with
  | nil => rfl
  | cons e rest ih =>
    have hrest := ih (u.step e) fun f hf => hedit f (List.mem_cons_of_mem _ hf)
    have hafter : u.after (e :: rest) = (u.step e).after rest := rfl
    rw [hafter]
    cases e with
    | ask owner =>
      have henv : (u.step (.ask owner)).env = (u.answer owner).after := rfl
      have hbefore : (u.answer owner).before = u.env := rfl
      rw [henv] at hrest
      simp only [answers, Event.asked, Option.map_some, Option.toList_some, List.singleton_append,
        List.map_cons, List.sum_cons, hbefore]
      omega
    | replaceBuilder b => exact hrest
    | edit f =>
      have henv : count (u.step (.edit f)).env = count u.env :=
        hedit f List.mem_cons_self u.held u.env
      rw [henv] at hrest
      exact hrest

end Use

/-! ## What a builder answers -/

/-- A copy of a description, under the label of the one who asked.  Nothing else happens. -/
structure Answer.Copies (o : Settings σ) (a : Answer σ) : Prop where
  result : a.result = .ok { o with owner := a.owner }
  still : a.after = a.before

/-- The answers of a builder: failures, each out of a run of its own, up to the first description
that is built.  What is answered later are copies of that, and the builder does not run. -/
inductive Answered (b : SignatureBuilder σ) : List (Answer σ) → Prop where
  | nothing : Answered b []
  | failed {a : Answer σ} {e : Error} {rest : List (Answer σ)} :
      b (.empty a.owner) a.before = (.error e, a.after) → a.result = .error e → a.kept = none →
      Answered b rest → Answered b (a :: rest)
  | built {a : Answer σ} {made given : Settings σ} {rest : List (Answer σ)} :
      b (.empty a.owner) a.before = (.ok made, a.after) → a.result = .ok given →
      given = { made with owner := a.owner } →
      (∀ later ∈ rest, later.Copies given) → Answered b (a :: rest)

/-- How often the builder runs for such answers: once for each, up to the first description. -/
def runs : List (Answer σ) → Nat
  | [] => 0
  | a :: rest =>
    match a.result with
    | .ok _ => 1
    | .error _ => runs rest + 1

/-- Each answer up to the first description costs one run of the builder, and later ones none. -/
theorem Answered.sum_count {b : SignatureBuilder σ} {count : Env σ → Nat}
    (hrun : ∀ o env, count (b o env).2 = count env + 1) {answers : List (Answer σ)}
    (h : Answered b answers) :
    (answers.map fun a => count a.after).sum =
      (answers.map fun a => count a.before).sum + runs answers := by
  induction h with
  | nothing => rfl
  | @failed a e rest hbuilder hresult _ _ ih =>
    have hcount := hrun (.empty a.owner) a.before
    rw [hbuilder] at hcount
    simp only [List.map_cons, List.sum_cons, runs, hresult, ih, hcount]
    omega
  | @built a made given rest hbuilder hresult _ hcopies =>
    have hcount := hrun (.empty a.owner) a.before
    rw [hbuilder] at hcount
    have hstill : rest.map (fun a => count a.after) = rest.map fun a => count a.before :=
      List.map_congr_left fun later hlater => congrArg count (hcopies later hlater).still
    simp only [List.map_cons, List.sum_cons, runs, hresult, hstill, hcount]
    omega

namespace Use

variable {u : Use σ η} {b : SignatureBuilder σ} {o : Settings σ} {events : List (Event σ)}

/-- A description that is kept is the answer to every question. -/
theorem copies_of_built (ho : u.signal.built = some o) (hkeeps : ∀ e ∈ events, e.Keeps) :
    ∀ a ∈ u.answers events, a.Copies o := by
  induction events generalizing u with
  | nil => simp [answers]
  | cons e rest ih =>
    rcases List.forall_mem_cons.1 hkeeps with ⟨he, hrest⟩
    cases e with
    | ask owner =>
      have hbuild : u.signal.buildSignature owner u.env =
          (.ok { o with owner }, u.signal, u.env) := buildSignature_of_built ho
      have hcopies : (u.answer owner).Copies o :=
        ⟨by simp [answer, hbuild], by simp [answer, hbuild]⟩
      have hnext : (u.step (.ask owner)).signal.built = some o := by
        simpa [step, hbuild] using ho
      exact List.forall_mem_cons.2 ⟨hcopies, ih hnext hrest⟩
    | replaceBuilder b => exact absurd he id
    | edit f => exact ih ho hrest

/-- From the moment a signal has a builder, it answers as the builder does. -/
theorem answered_of_builder (hb : u.signal.signature = some b) (hnone : u.signal.built = none)
    (hkeeps : ∀ e ∈ events, e.Keeps) : Answered b (u.answers events) := by
  -- the signal is the same after a failure, and keeps the description after a success
  induction events generalizing u with
  | nil => exact .nothing
  | cons e rest ih =>
    rcases List.forall_mem_cons.1 hkeeps with ⟨he, hrest⟩
    cases e with
    | ask owner =>
      rcases hrun : b (.empty owner) u.env with ⟨e | made, env⟩
      · have hbuild := buildSignature_of_failed hb hnone hrun
        have hsignal : (u.step (.ask owner)).signal = u.signal := by simp [step, hbuild]
        have hlater := ih (hsignal ▸ hb) (hsignal ▸ hnone) hrest
        have hanswer : u.answer owner = ⟨owner, u.env, .error e, none, env⟩ := by
          simp [answer, hbuild, hnone]
        rw [answers, Event.asked, Option.map_some, hanswer]
        exact .failed hrun rfl rfl hlater
      · have hbuild := buildSignature_of_made hb hnone hrun
        -- what the builder made is kept as it is, and each copy gets a label of its own
        have hnext : (u.step (.ask owner)).signal.built = some made := by simp [step, hbuild]
        have hanswer : u.answer owner =
            ⟨owner, u.env, .ok { made with owner }, some made, env⟩ := by
          simp [answer, hbuild]
        rw [answers, Event.asked, Option.map_some, hanswer]
        refine .built hrun rfl rfl ?_
        intro a ha
        have hcopies := copies_of_built hnext hrest a ha
        exact ⟨hcopies.result, hcopies.still⟩
    | replaceBuilder b => exact absurd he id
    | edit f => exact ih hb hnone hrest

/-- Whatever happened to a signal and to what it gave out: since it got its last builder, the
questions are answered by that builder up to its first success, and from then on by copies of what
was answered there.  The builder runs for no other question. -/
theorem answered_since (u : Use σ η) (earlier : List (Event σ)) (b : SignatureBuilder σ)
    {later : List (Event σ)} (hkeeps : ∀ e ∈ later, e.Keeps) :
    ∃ since, u.answers (earlier ++ .replaceBuilder b :: later) = u.answers earlier ++ since ∧
      since.map Answer.owner = later.filterMap Event.asked ∧
      Answered b since ∧
      ∀ count : Env σ → Nat, (∀ o env, count (b o env).2 = count env + 1) →
        (∀ f, .edit f ∈ later → ∀ held env, count (f held env).2 = count env) →
        count (u.after (earlier ++ .replaceBuilder b :: later)).env =
          count (u.after earlier).env + runs since := by
  have hnew : Answered b (((u.after earlier).step (.replaceBuilder b)).answers later) :=
    answered_of_builder rfl rfl hkeeps
  refine ⟨((u.after earlier).step (.replaceBuilder b)).answers later, answers_append _ _ _,
    owner_answers _ _, hnew, ?_⟩
  intro count hrun hedit
  -- what the count gains at the answers is what the runs of the builder add
  have hcount := count_after ((u.after earlier).step (.replaceBuilder b)) hedit
  have hsum := hnew.sum_count hrun
  have henv : ((u.after earlier).step (.replaceBuilder b)).env = (u.after earlier).env := rfl
  have hafter : u.after (earlier ++ .replaceBuilder b :: later) =
      ((u.after earlier).step (.replaceBuilder b)).after later := after_append _ _ _
  rw [henv] at hcount
  rw [hafter]
  omega

/-- A builder that does not know its options when it runs for the first time. -/
def failingOnce : SignatureBuilder Nat := fun o env =>
  let result := if env.host = 0 then .error (.other "not yet") else o.add "file" "" (.ofString "")
  (result, { env with host := env.host + 1 })

/-- What happens after the signal got this builder: the copy of `b` is lost before `c` asks. -/
def threeAsk : List (Event Nat) :=
  [.ask "a", .ask "b", .edit fun _ env => ([], env), .ask "c"]

/-- A signal that describes no arguments as yet. -/
def plainUse : Use Nat Unit := ⟨.new "read" (.custom ()), [], ⟨[], 0, []⟩⟩

theorem answered_since_failingOnce :
    (∀ e ∈ threeAsk, e.Keeps) ∧
    ∃ since, Answered failingOnce since ∧ since.map Answer.owner = ["a", "b", "c"] ∧
      (since.map fun a => a.result.toOption.map Settings.names) =
        [none, some ["file"], some ["file"]] ∧
      (plainUse.after (.ask "z" :: .replaceBuilder failingOnce :: threeAsk)).env.host = 2 := by
  have hkeeps : ∀ e ∈ threeAsk, e.Keeps := by simp [threeAsk, Event.Keeps]
  rcases plainUse.answered_since [.ask "z"] failingOnce hkeeps with
    ⟨since, hanswers, howner, hanswered, hcount⟩
  have hsince : since = ((plainUse.after [.ask "z"]).step (.replaceBuilder failingOnce)).answers
      threeAsk := (List.append_cancel_left hanswers).symm
  have hhost := hcount Env.host (fun _ _ => rfl) (by
    intro f hf held env
    simp only [threeAsk, List.mem_cons, Event.edit.injEq, reduceCtorEq, List.not_mem_nil,
      false_or, or_false] at hf
    rw [hf])
  refine ⟨hkeeps, since, hanswered, howner, ?_, ?_⟩
  · rw [hsince]
    rfl
  · exact hhost.trans (by rw [hsince]; rfl)

end Use
end Signal

/-- A component that is asked asks its signal, under its path and the name of the signal, and keeps
what the signal keeps. -/
theorem World.signature_eq_answer {σ η : Type} {w : World σ η} {id : NodeId} {name : String}
    {c : Component σ η} {s : Signal σ η} (hc : w.tree.get? id = some c)
    (hs : c.signals.get? name = some s) (held : List (Settings σ)) :
    let u : Signal.Use σ η := ⟨s, held, w.env⟩
    let owner := w.tree.pathText id ++ "#" ++ name
    (w.signature id name).1 = (u.answer owner).result ∧
      (w.signature id name).2.env = (u.step (.ask owner)).env ∧
      ∃ d, (w.signature id name).2.tree.get? id = some d ∧
        d.signals.get? name = some (u.step (.ask owner)).signal := by
  intro u owner
  have hcomponent : w.tree.component id = .ok c := by rw [Tree.component, hc]
  have hsignal : c.signals.get name = .ok s := by rw [Signals.get, hs]
  have hsignature : w.signature id name =
      ((s.buildSignature owner w.env).1,
        { tree := w.tree.modify id fun c =>
            { c with signals := c.signals.replace name (s.buildSignature owner w.env).2.1 }
          env := (s.buildSignature owner w.env).2.2 }) := by
    simp only [signature, hcomponent, hsignal]
    rfl
  rw [hsignature]
  refine ⟨rfl, rfl, _, by rw [Tree.get?_modify, if_pos rfl, hc, Option.map_some], ?_⟩
  have hlookup : c.signals.items.lookup name = some s := hs
  rw [Signals.get?, Signals.replace, Keyed.lookup_modify, if_pos rfl, hlookup, Option.map_some]
  rfl

end SignalTree
