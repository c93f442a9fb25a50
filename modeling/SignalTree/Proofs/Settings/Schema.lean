import SignalTree.Proofs.Settings.Run
import SignalTree.Proofs.Wire.RoundTrip

/-!
# Schema — options survive the wire

Options are described by a frame, the frame is written as a document, and on the other side the
document is read and made into options again.  On the way a name to show that is the name itself is
dropped, and a map of which nothing is known comes back as a frame inside the frame.  The list of
allowed values is checked once more against the new default, which is the value that was sent.

Two things do not survive.  A description names an option by the name that it has, so an option that
stands under another key comes back under its own name, or is lost to another option of this name.
And a leap second that is not at the end of a minute comes back as the second that follows.

* `Setting.Sendable`, `Settings.Sendable`: options whose descriptions can be sent;
* `Setting.described`: the option that a description describes;
* `Setting.SameSchema`: what an option and the one that comes back have in common;
* `Settings.byName`, `Settings.copied`: the options that a description describes, and those made of
  it;
* `ofFrame_readFrame_toFrame`: the round trip of the options of a component.
-/

namespace SignalTree

variable {σ τ : Type}

/-! ## One option -/

namespace Setting

/-- The description of the option can be sent. -/
structure Sendable (s : Setting σ) : Prop where
  name : Xml.IsAttribute s.name
  description : Xml.IsAttribute s.description
  pretty : Xml.IsAttribute s.pretty
  value : s.value.Sendable
  restricted_count : s.restricted.length < UInt64.size
  restricted : ∀ v ∈ s.restricted, v.Sendable ∧ v.payload.depth ≤ Json.maxDepth

/-- The option that starts at a value of which something is known.  Nothing is linked to it. -/
def described (key : String) (v : Value) (info : Meta) : Setting σ where
  name := key
  description := info.description
  pretty := if info.pretty = key then "" else info.pretty
  value := v
  default := v
  restricted := info.restricted
  tier := info.tier.getD .advanced
  triggers := []
  slots := []

/-- What is known about the value of an option. -/
def info (s : Setting σ) : Meta := ⟨s.description, s.prettyName, some s.tier, s.restricted⟩

/-- The second option describes itself as the first does, and has its value and starts at it. -/
structure SameSchema (s : Setting σ) (t : Setting τ) : Prop where
  name : t.name = s.name
  kind : t.kind = s.kind
  description : t.description = s.description
  pretty : t.prettyName = s.prettyName
  tier : t.tier = s.tier
  restricted : t.restricted = s.restricted
  value : t.value = s.value
  default : t.default = s.value

variable {s : Setting σ}

theorem sendable_describe (hs : s.Sendable) (hconsistent : Consistent s.kind s) :
    (Settings.describe s).Sendable := by
  have hpretty : Xml.IsAttribute s.prettyName := by
    by_cases hempty : s.pretty = ""
    · simpa [prettyName, hempty] using hs.name
    · simpa [prettyName, hempty] using hs.pretty
  have hchoice : ∀ v ∈ s.restricted, v.Choice := fun v hv =>
    (hs.restricted v hv).1.choice (hs.restricted v hv).2
  rw [Settings.describe, Entry.Sendable]
  exact ⟨hs.value, hs.description, hpretty, hs.restricted_count,
    fun _ => hconsistent.kind_of_mem, hchoice⟩

theorem prettyName_of_empty (h : s.prettyName = "") : s.prettyName = s.name := by
  by_cases hempty : s.pretty = ""
  · simp [prettyName, hempty]
  · simp [prettyName, hempty] at h

/-- The option that is made of what an option says of itself. -/
def rebuilt (s : Setting σ) : Setting τ := described s.name s.value s.info

/-- The option that is made of it on the other side of the wire. -/
def received (s : Setting σ) : Setting τ := described s.name s.value.settled s.info.settled

theorem sameSchema_rebuilt (hconsistent : Consistent s.kind s) :
    SameSchema s (s.rebuilt : Setting τ) where
  name := rfl
  kind := hconsistent.value_kind
  description := rfl
  pretty := by
    change (if (if s.prettyName = s.name then "" else s.prettyName) = "" then s.name
      else if s.prettyName = s.name then "" else s.prettyName) = s.prettyName
    by_cases hname : s.prettyName = s.name
    · rw [if_pos hname, if_pos rfl, hname]
    · rw [if_neg hname, if_neg fun hempty => hname (prettyName_of_empty hempty)]
  tier := rfl
  restricted := rfl
  value := rfl
  default := rfl

/-- Every leap second in what is published of the option is at the end of a minute. -/
def IsSettled (s : Setting σ) : Prop :=
  s.value.Every Scalar.IsSettled ∧ ∀ v ∈ s.restricted, v.Every Scalar.IsSettled

/-- What comes back of an option has its schema if the option is settled, and only then. -/
theorem sameSchema_received_iff (hconsistent : Consistent s.kind s) :
    SameSchema s (s.received : Setting τ) ↔ s.IsSettled := by
  have hinfo : s.info.settled = s.info ↔ ∀ v ∈ s.restricted, v.Every Scalar.IsSettled :=
    Meta.settled_eq_self_iff
  rw [IsSettled, ← Value.settled_eq_self_iff, ← hinfo]
  constructor
  · intro h
    refine ⟨h.value, ?_⟩
    exact congrArg (fun choices => { s.info with restricted := choices }) h.restricted
  · rintro ⟨hvalue, hself⟩
    rw [received, hvalue, hself]
    exact sameSchema_rebuilt hconsistent

end Setting

/-! ## Descriptions -/

namespace Settings

open Setting (described)

section
variable {key : String} {v : Value} {info : Meta}

theorem ofEntry_value (hkey : Text.blank key = false)
    (hkinds : ∀ w ∈ info.restricted, w.kind = v.kind)
    (hallowed : info.restricted ≠ [] → v.isIn info.restricted = true) :
    ofEntry key (.value v info) = .ok (described key v info : Setting σ) := by
  let s : Setting σ := { described key v info with restricted := [] }
  have hentry : ofEntry key (.value v info)
      = if info.restricted.isEmpty then .ok s else s.restrictTo info.restricted := by
    have hnew : Setting.new key info.description v
        = .ok (⟨key, info.description, "", v, v, [], .advanced, [], []⟩ : Setting σ) :=
      Setting.new_eq_ok_iff.2 ⟨hkey, rfl⟩
    by_cases hpretty : info.pretty = key
    · simp [ofEntry, hnew, hpretty, bind, Except.bind, pure, Except.pure, s, described]
    · simp [ofEntry, hnew, hpretty, bind, Except.bind, pure, Except.pure, s, described]
  rw [hentry]
  by_cases hempty : info.restricted = []
  · simp [hempty, s, described]
  · rw [if_neg (by simpa using hempty)]
    refine Setting.restrictTo_eq_ok_iff.2 ⟨hkinds, ?_, hallowed hempty⟩
    have hdefault : v.isIn info.restricted = true := hallowed hempty
    simp [s, described, hdefault]

/-- A frame in a description is a map with a description and a tier. -/
theorem ofEntry_frame (f : Frame) (hkey : Text.blank key = false) :
    ofEntry key (.frame f)
      = .ok (described key (.map f.toMap) ⟨f.description, "", f.tier, []⟩ : Setting σ) := by
  have hnew : Setting.new key f.description (.map f.toMap)
      = .ok (⟨key, f.description, "", .map f.toMap, .map f.toMap, [], .advanced, [], []⟩
          : Setting σ) :=
    Setting.new_eq_ok_iff.2 ⟨hkey, rfl⟩
  simp [ofEntry, hnew, bind, Except.bind, pure, Except.pure, described]

/-- A name to show that was dropped makes no difference. -/
theorem described_received : (described key v (info.received key) : Setting σ)
    = described key v info := by
  by_cases hpretty : info.pretty = key
  · simp [described, Meta.received, hpretty]
  · simp [described, Meta.received, hpretty]

/-- What comes back of a value describes what the value does, be it a frame or not. -/
theorem ofEntry_received (hkey : Text.blank key = false)
    (hkinds : ∀ w ∈ info.restricted, w.kind = v.kind)
    (hallowed : info.restricted ≠ [] → v.isIn info.restricted = true) :
    ofEntry key (v.received key info) = .ok (described key v info : Setting σ) := by
  have hvalue : ofEntry key (.value v (info.received key))
      = .ok (described key v info : Setting σ) := by
    rw [← described_received]
    exact ofEntry_value hkey hkinds hallowed
  cases v with
  | scalar s => exact hvalue
  | list l => exact hvalue
  | map entries =>
    rw [Value.received]
    by_cases hframe : (info.received key).pretty = "" ∧ info.restricted.isEmpty
    · have hinfo : (⟨info.description, "", info.tier, []⟩ : Meta) = info.received key := by
        rw [← hframe.1, ← List.isEmpty_iff.1 hframe.2]
        rfl
      rw [if_pos hframe, ofEntry_frame _ hkey, Frame.toMap, Entry.toMapEntries_ofMapEntries]
      simp only [hinfo, described_received]
    · rw [if_neg hframe]
      exact hvalue

end

/-- What a description says of an option is what it takes to make one. -/
theorem ofEntry_describe {s : Setting σ} (hs : s.Made) :
    ofEntry s.name (describe s) = .ok (s.rebuilt : Setting τ) :=
  ofEntry_value hs.name_filled (fun _ => hs.consistent.kind_of_mem)
    hs.consistent.value_allowed

/-- So it is on the other side of the wire. -/
theorem ofEntry_received_describe {s : Setting σ} (hs : s.Made) :
    ofEntry s.name ((describe s).settled.received s.name) = .ok (s.received : Setting τ) := by
  have hkinds : ∀ v ∈ s.info.settled.restricted, v.kind = s.value.settled.kind := by
    intro v hv
    rcases List.mem_map.1 hv with ⟨w, hw, rfl⟩
    rw [Value.kind_settled, Value.kind_settled]
    exact hs.consistent.kind_of_mem hw
  -- what is settled on the way stays among the allowed values, which are settled with it
  have hallowed : s.info.settled.restricted ≠ [] →
      s.value.settled.isIn s.info.settled.restricted = true := by
    intro hne
    refine Value.isIn_settled (hs.consistent.value_allowed ?_)
    rintro hnil
    exact hne (congrArg (List.map Value.settled) hnil)
  rw [describe, Entry.settled, Entry.received]
  exact ofEntry_received hs.name_filled hkinds hallowed

/-! ## All options -/

variable {o : Settings σ}

/-- The options by the names that they have; of options of one name the last one counts. -/
def byName (o : Settings σ) : List (String × Setting σ) :=
  Keyed.ofList (o.all.map fun s => (s.name, s))

theorem distinct_byName (o : Settings σ) : Keyed.Distinct o.byName := Keyed.distinct_ofList _

theorem mem_all_of_mem_byName {p : String × Setting σ} (h : p ∈ o.byName) :
    p.2 ∈ o.all ∧ p.2.name = p.1 := by
  rcases List.mem_map.1 (Keyed.mem_of_mem_ofList h) with ⟨s, hs, rfl⟩
  exact ⟨hs, rfl⟩

theorem Orderly.made_of_mem_byName {p : String × Setting σ} (ho : o.Orderly)
    (hp : p ∈ o.byName) : p.2.Made :=
  ho.made_of_mem_all (mem_all_of_mem_byName hp).1

/-- What a description says, and under which names. -/
theorem toFrame_eq (o : Settings σ) :
    o.toFrame = ⟨"", none, o.byName.map fun p => (p.1, describe p.2)⟩ := by
  rw [toFrame, Frame.foldl_put, byName, ← Keyed.ofList_map, List.map_map]
  rfl

theorem map_name_of_own (h : o.Own) : (o.all.map fun s => (s.name, s)) = o.items := by
  rw [all, Keyed.values, List.map_map]
  exact map_eq_self_iff.2 fun p hp => Prod.ext (h p hp) rfl

theorem byName_of_own (h : o.Own) (hd : Keyed.Distinct o.items) : o.byName = o.items := by
  rw [byName, map_name_of_own h, Keyed.ofList_of_distinct hd]

/-- A description has the keys of the options only if these are their names. -/
theorem keys_byName_eq_iff (hd : Keyed.Distinct o.items) :
    Keyed.keys o.byName = o.names ↔ o.Own := by
  constructor
  · intro h
    have hlength : (o.all.map fun s => (s.name, s)).length ≤ o.byName.length := by
      simpa [Keyed.keys, names, all, Keyed.values] using (congrArg List.length h).ge
    -- no option is lost, so the names are those of the options, one after the other
    have hall := Keyed.ofList_of_distinct (Keyed.distinct_of_length_le hlength)
    rw [byName, hall, names, Keyed.keys, Keyed.keys, all, Keyed.values, List.map_map,
      List.map_map] at h
    exact List.map_inj_left.1 h
  · intro h
    rw [byName_of_own h hd, names]

/-- Descriptions are made into options, one after the other, that have other names than those
before. -/
theorem addEntries_map {α : Type} {o : Settings τ} {items : List (String × α)}
    {entry : String × α → Entry} {copy : String × α → Setting τ}
    (hmade : ∀ p ∈ items, ofEntry p.1 (entry p) = .ok (copy p) ∧ (copy p).name = p.1)
    (hdistinct : (o.names ++ Keyed.keys items).Nodup) :
    o.addEntries (items.map fun p => (p.1, entry p))
      = .ok { o with items := o.items ++ items.map fun p => (p.1, copy p) } := by
  induction items generalizing o with
  | nil => simp [addEntries]
  | cons p rest ih =>
    rw [List.forall_mem_cons] at hmade
    rcases hmade with ⟨⟨hentry, hname⟩, hrest⟩
    -- the first name is none of those before, and it is one of those before the rest
    have hfree : o.items.lookup (copy p).name = none := by
      rw [Keyed.lookup_eq_none_iff_notMem_keys, hname]
      intro hmem
      exact (List.nodup_append.1 hdistinct).2.2 p.1 hmem p.1 (List.mem_cons_self ..) rfl
    have hinsert : o.insert (copy p) = .ok { o with items := o.items ++ [(p.1, copy p)] } :=
      insert_eq_ok_iff.2 ⟨hfree, by rw [hname]⟩
    rw [List.map_cons, addEntries, hentry]
    simp only [bind, Except.bind, hinsert]
    rw [ih hrest]
    · simp
    · simpa [names, Keyed.keys] using hdistinct

/-- The options by their own names, each replaced by a copy. -/
def copied (o : Settings σ) (owner : String) (copy : Setting σ → Setting τ) : Settings τ :=
  ⟨owner, o.byName.map fun p => (p.1, copy p.2)⟩

section
variable {copy : Setting σ → Setting τ}

theorem names_copied_iff (hd : Keyed.Distinct o.items) (owner : String) :
    (o.copied owner copy).names = o.names ↔ o.Own := by
  have hnames : (o.copied owner copy).names = Keyed.keys o.byName := Keyed.keys_map _ _
  rw [hnames, keys_byName_eq_iff hd]

theorem own_copied (hcopy : ∀ s, (copy s).name = s.name) (owner : String) :
    (o.copied owner copy).Own := by
  rw [Own, copied, List.forall_mem_map]
  exact fun p hp => (hcopy p.2).trans (mem_all_of_mem_byName hp).2

/-- Options under their own names are copied one by one. -/
theorem forall₂_copied_iff {R : Setting σ → Setting τ → Prop} (hd : Keyed.Distinct o.items)
    (hown : o.Own) (owner : String) :
    List.Forall₂ R o.all (o.copied owner copy).all ↔ ∀ s ∈ o.all, R s (copy s) := by
  rw [copied, byName_of_own hown hd, all, all, Keyed.values, Keyed.values, List.map_map,
    List.forall₂_map_left_iff, List.forall₂_map_right_iff, List.forall₂_same, List.forall_mem_map]
  rfl

/-- Each description makes a copy of its option. -/
theorem Orderly.addEntries_copied (ho : o.Orderly) (owner : String)
    (entry : String → Setting σ → Entry) (hcopy : ∀ s, (copy s).name = s.name)
    (hentry : ∀ s, s.Made → ofEntry s.name (entry s.name s) = .ok (copy s)) :
    addEntries (empty owner) (o.byName.map fun p => (p.1, entry p.1 p.2))
      = .ok (o.copied owner copy) := by
  refine addEntries_map (o := Settings.empty owner) ?_ (distinct_byName o)
  intro p hp
  rcases mem_all_of_mem_byName hp with ⟨hall, hname⟩
  rw [← hname]
  exact ⟨hentry p.2 (ho.made_of_mem_all hall), hcopy p.2⟩

end

/-- The description of every option can be sent. -/
def Sendable (o : Settings σ) : Prop := ∀ s ∈ o.all, s.Sendable

theorem allSendable_describe {items : List (String × Setting σ)}
    (h : ∀ p ∈ items, p.2.name = p.1 ∧ p.2.Made ∧ p.2.Sendable) :
    Entry.AllSendable (items.map fun p => (p.1, describe p.2)) := by
  induction items with
  | nil => simp [Entry.AllSendable]
  | cons p rest ih =>
    rw [List.forall_mem_cons] at h
    rcases h with ⟨⟨hname, hmade, hs⟩, hrest⟩
    rw [List.map_cons, Entry.AllSendable]
    exact ⟨hname ▸ hs.name, Setting.sendable_describe hs hmade.consistent, ih hrest⟩

theorem Orderly.sendable_toFrame (ho : o.Orderly) (hs : o.Sendable) : o.toFrame.Sendable := by
  rw [toFrame_eq, Frame.Sendable]
  refine ⟨by decide, (distinct_byName o).of_keys_eq (Keyed.keys_map _ _),
    allSendable_describe fun p hp => ?_⟩
  rcases mem_all_of_mem_byName hp with ⟨hall, hname⟩
  exact ⟨hname, ho.made_of_mem_byName hp, hs p.2 hall⟩

theorem Orderly.ofFrame_received (ho : o.Orderly) (owner : String) :
    ofFrame owner o.toFrame.settled.received
      = .ok (o.copied owner Setting.received : Settings τ) := by
  rw [toFrame_eq, Frame.settled, Frame.received, Entry.allReceived_eq_map, Entry.allSettled_eq_map,
    List.map_map, List.map_map]
  exact ho.addEntries_copied owner (fun key s => (describe s).settled.received key)
    (fun s => (rfl : s.received.name = s.name)) fun _ => ofEntry_received_describe

theorem Orderly.readFrame_toFrame (ho : o.Orderly) (hs : o.Sendable) (owner : String) :
    (Wire.readFrame (String.ofList (Wire.writeFrame o.toFrame)) >>= ofFrame owner)
      = .ok (o.copied owner Setting.received : Settings τ) := by
  rw [Wire.readFrame_received (ho.sendable_toFrame hs)]
  exact ho.ofFrame_received owner

/-- Options under their own names come back with the schemas they had, if all are settled. -/
theorem Orderly.sameSchema_received_iff (ho : o.Orderly) (hown : o.Own) (owner : String) :
    List.Forall₂ Setting.SameSchema o.all (o.copied owner Setting.received : Settings τ).all ↔
      ∀ s ∈ o.all, s.IsSettled :=
  (forall₂_copied_iff ho.names_distinct hown owner).trans <| forall₂_congr fun _ hs =>
    Setting.sameSchema_received_iff (ho.made_of_mem_all hs).consistent

/-- Options that were declared, changed and overwritten are sent, read and made into options again.
They come back under the same names in the same order if and only if each stands under its own name.
If so, each has the schema that it was sent with, and the value that it had also for a default, if
and only if every leap second in it is at the end of a minute. -/
theorem ofFrame_readFrame_toFrame (o : Settings σ) (ho : o.Reached) (hs : o.Sendable)
    (owner : String) :
    ∃ copy : Settings τ,
      (Wire.readFrame (String.ofList (Wire.writeFrame o.toFrame)) >>= ofFrame owner) = .ok copy ∧
        copy.owner = owner ∧ (copy.names = o.names ↔ o.Own) ∧
        (o.Own → (List.Forall₂ Setting.SameSchema o.all copy.all ↔ ∀ s ∈ o.all, s.IsSettled)) := by
  have horderly := ho.orderly
  exact ⟨o.copied owner Setting.received, horderly.readFrame_toFrame hs owner, rfl,
    names_copied_iff horderly.names_distinct owner,
    fun hown => horderly.sameSchema_received_iff hown owner⟩

/-- A map inside a map, with a list. -/
def sampleMap : Value :=
  .map [("at", .map [("path", .scalar (.path ⟨some "cpath", "/a:b"⟩))]),
    ("list", .list ⟨.integer, [.integer 4, .integer (-1)], by decide⟩)]

/-- A text that is not at its default, and maps with and without a name to show and values to
choose from. -/
def sampleOptions : Settings Unit where
  owner := "cpath:/a"
  items := [
    ("mode", ⟨"mode", "what's it", "Mode", .scalar (.string "fast"),
      .scalar (.string "a <\n b"), [.scalar (.string "fast"), .scalar (.string "a <\n b")],
      .basic, [], []⟩),
    ("plain", ⟨"plain", "", "", sampleMap, sampleMap, [], .advanced, [], []⟩),
    ("named", ⟨"named", "", "Map", sampleMap, sampleMap, [], .basic, [], []⟩),
    ("limited", ⟨"limited", "", "", sampleMap, sampleMap, [.map [], sampleMap], .advanced, [],
      []⟩),
    ("both", ⟨"both", "", "Both", sampleMap, sampleMap, [sampleMap], .advanced, [], []⟩)]

/-- The description from which the options started. -/
def sampleFrame : Frame where
  description := ""
  tier := none
  entries := [
    ("mode", .value (.scalar (.string "a <\n b")) ⟨"what's it", "Mode", some .basic,
      [.scalar (.string "fast"), .scalar (.string "a <\n b")]⟩),
    ("plain", .value sampleMap ⟨"", "plain", none, []⟩),
    ("named", .value sampleMap ⟨"", "Map", some .basic, []⟩),
    ("limited", .value sampleMap ⟨"", "", none, [.map [], sampleMap]⟩),
    ("both", .value sampleMap ⟨"", "Both", none, [sampleMap]⟩)]

theorem ofFrame_readFrame_sampleOptions :
    sampleOptions.Reached ∧ sampleOptions.Sendable ∧ sampleOptions.Own ∧
      (∀ s ∈ sampleOptions.all, s.IsSettled) ∧
      ∃ copy : Settings Unit,
        (Wire.readFrame (String.ofList (Wire.writeFrame sampleOptions.toFrame))
            >>= ofFrame "cpath:/b") = .ok copy ∧
          copy.owner = "cpath:/b" ∧ copy.names = sampleOptions.names ∧
          List.Forall₂ Setting.SameSchema sampleOptions.all copy.all := by
  let env : Env Unit := ⟨[], (), []⟩
  have hmap : sampleMap.Sendable := by
    simp only [sampleMap, Value.Sendable, Value.SendableEntries, Scalar.Sendable]
    have hpath : Uri.IsParsed ⟨some "cpath", "/a:b"⟩ := ⟨"cpath:/a:b", rfl⟩
    exact ⟨by decide, by decide, ⟨by decide, by decide, ⟨hpath, by decide⟩, trivial⟩, by decide,
      ⟨by decide, by simp⟩, trivial⟩
  have hnone : (Value.map []).Sendable := by
    simp only [Value.Sendable, Value.SendableEntries]
    exact ⟨by decide, trivial⟩
  have htexts : ∀ v ∈ [Value.scalar (.string "fast"), .scalar (.string "a <\n b")],
      v.Sendable ∧ v.payload.depth ≤ Json.maxDepth := by
    simp only [List.mem_cons, List.not_mem_nil, or_false, forall_eq_or_imp, forall_eq,
      Value.Sendable, Scalar.Sendable]
    exact ⟨⟨by decide, by decide⟩, by decide, by decide⟩
  have hreached : sampleOptions.Reached := by
    have hstart : Reached _ := .ofFrame "cpath:/a" sampleFrame env rfl
    exact hstart.set "mode" (.scalar (.string "fast")) env
  have hsendable : sampleOptions.Sendable := by
    simp only [Sendable, all, Keyed.values, sampleOptions, List.map_cons, List.map_nil,
      List.mem_cons, List.not_mem_nil, or_false, forall_eq_or_imp, forall_eq]
    refine ⟨⟨by decide, by decide, by decide, ?_, by decide, htexts⟩,
      ⟨by decide, by decide, by decide, hmap, by decide, by simp⟩,
      ⟨by decide, by decide, by decide, hmap, by decide, by simp⟩,
      ⟨by decide, by decide, by decide, hmap, by decide, ?_⟩,
      ⟨by decide, by decide, by decide, hmap, by decide, ?_⟩⟩
    · exact (htexts _ (List.mem_cons_self ..)).1
    · simp only [List.mem_cons, List.not_mem_nil, or_false, forall_eq_or_imp, forall_eq]
      exact ⟨⟨hnone, by decide⟩, hmap, by decide⟩
    · simp only [List.mem_cons, List.not_mem_nil, or_false, forall_eq]
      exact ⟨hmap, by decide⟩
  have hown : sampleOptions.Own := by
    simp [Own, sampleOptions]
  have hsettled : ∀ s ∈ sampleOptions.all, s.IsSettled := by
    simp [all, Keyed.values, sampleOptions, sampleMap, Setting.IsSettled, Value.Every,
      Value.EveryEntry, Scalar.IsSettled]
  rcases ofFrame_readFrame_toFrame (τ := Unit) sampleOptions hreached hsendable "cpath:/b"
    with ⟨copy, hcopy, howner, hnames, hschema⟩
  exact ⟨hreached, hsendable, hown, hsettled, copy, hcopy, howner, hnames.2 hown,
    (hschema hown).2 hsettled⟩

/-- A switch that is on. -/
def switchOn : Setting Unit :=
  ⟨"c", "", "", .scalar (.bool true), .scalar (.bool true), [], .advanced, [], []⟩

/-- The switch has overwritten two others. -/
def foreignOptions : Settings Unit where
  owner := "cpath:/a"
  items := [("a", switchOn), ("b", switchOn)]

theorem reached_foreignOptions : foreignOptions.Reached := by
  let off : Value := .scalar (.bool false)
  have hmade : switchOn.Made := ⟨"c", "", .scalar (.bool true), _, rfl, .start⟩
  have hfirst : Reached (σ := Unit) _ := .add "a" "" off rfl (.empty "cpath:/a")
  have hsecond : Reached (σ := Unit) _ := .add "b" "" off rfl hfirst
  exact (hsecond.store "a" hmade trivial).store "b" hmade trivial

/-- A time that is a leap second after the twenty-third second of a minute. -/
def leapOptions : Settings Unit where
  owner := "cpath:/a"
  items := [("at", ⟨"at", "", "", Value.earlyLeap, Value.earlyLeap, [], .advanced, [], []⟩)]

/-- The switch comes back once, under its own name, and the time with the second that follows. -/
theorem ofFrame_readFrame_changed :
    (foreignOptions.Reached ∧ foreignOptions.Sendable ∧
      ∃ copy : Settings Unit,
        (Wire.readFrame (String.ofList (Wire.writeFrame foreignOptions.toFrame))
            >>= ofFrame "cpath:/b") = .ok copy ∧ copy.names ≠ foreignOptions.names) ∧
    (leapOptions.Reached ∧ leapOptions.Sendable ∧
      ∃ copy : Settings Unit,
        (Wire.readFrame (String.ofList (Wire.writeFrame leapOptions.toFrame))
            >>= ofFrame "cpath:/b") = .ok copy ∧
          ¬ List.Forall₂ Setting.SameSchema leapOptions.all copy.all) := by
  have hleap : leapOptions.Reached := .add "at" "" Value.earlyLeap rfl (.empty "cpath:/a")
  have hforeign := reached_foreignOptions.orderly
  have hforeignSendable : foreignOptions.Sendable := by
    have hswitch : switchOn.Sendable :=
      ⟨by decide, by decide, by decide, by simp [switchOn, Value.Sendable, Scalar.Sendable],
        by decide, by simp [switchOn]⟩
    simp only [Sendable, all, Keyed.values, foreignOptions, List.map_cons, List.map_nil,
      List.mem_cons, List.not_mem_nil, or_false, or_self, forall_eq]
    exact hswitch
  have hleapSendable : leapOptions.Sendable := by
    simp only [Sendable, all, Keyed.values, leapOptions, List.map_cons, List.map_nil,
      List.mem_singleton, forall_eq]
    exact ⟨by decide, by decide, by decide,
      by simp [Value.earlyLeap, Value.Sendable, Scalar.Sendable], by decide, by simp⟩
  have hnotOwn : ¬ foreignOptions.Own := by
    simp [Own, foreignOptions, switchOn]
  have hown : leapOptions.Own := by
    simp [Own, leapOptions]
  have hunsettled : ¬ ∀ s ∈ leapOptions.all, s.IsSettled := by
    intro h
    have htime := (h _ (List.mem_cons_self ..)).1
    simp only [Value.earlyLeap, Value.Every, Scalar.IsSettled] at htime
    exact absurd htime (by decide)
  exact ⟨⟨reached_foreignOptions, hforeignSendable, _,
      hforeign.readFrame_toFrame hforeignSendable _,
      mt (names_copied_iff hforeign.names_distinct _).1 hnotOwn⟩,
    ⟨hleap, hleapSendable, _, hleap.orderly.readFrame_toFrame hleapSendable _,
      mt (hleap.orderly.sameSchema_received_iff hown _).1 hunsettled⟩⟩

end Settings
end SignalTree
