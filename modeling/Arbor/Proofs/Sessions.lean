import Arbor.Proofs.Lifetimes
import Arbor.Session.Run

/-!
# What every run keeps

No command breaks a link, forgets a mark or saves a node that was never made, whether it is carried
out or refused.  After each step the dead are gone, so that a second settling would change nothing.

* `Session.WellFormed`          the invariant of a session;
* `WellFormed.has_living_iff`   the marks of a session are those of what its anchors keep;
* `WellFormed.perform`          a command keeps it;
* `Reachable.wellFormed`, `Reachable.settle_eq`  so it holds, settled, after every run;
* `Reachable.links_whole`       what it says of living nodes.
-/

namespace Arbor

theorem Except.bind_eq_ok_iff {α β : Type} {x : Except Fault α} {next : α → Except Fault β}
    {b : β} : (x >>= next) = .ok b ↔ ∃ a, x = .ok a ∧ next a = .ok b := by
  cases x with
  | error e =>
    constructor
    · intro hb
      cases hb
    · rintro ⟨a, ha, _⟩
      cases ha
  | ok a =>
    constructor
    · intro hb
      exact ⟨a, rfl, hb⟩
    · rintro ⟨_, ha, hb⟩
      cases ha
      exact hb

theorem Dictionary.mem_put {α : Type} {key : String} {value : α} {entries : Dictionary α}
    {entry : String × α} (h : entry ∈ put key value entries) :
    entry = (key, value) ∨ entry ∈ entries := by
  induction entries with
  | nil => exact Or.inl (List.mem_singleton.mp h)
  | cons first rest ih =>
    rw [put] at h
    split at h
    · rcases List.mem_cons.mp h with h | h
      · exact Or.inl h
      · exact Or.inr (List.mem_cons_of_mem first h)
    · rcases List.mem_cons.mp h with h | h
      · exact Or.inr (List.mem_cons.mpr (Or.inl h))
      · rcases ih h with h | h
        · exact Or.inl h
        · exact Or.inr (List.mem_cons_of_mem first h)

theorem Dictionary.mem_of_get? {α : Type} {key : String} {value : α} {entries : Dictionary α}
    (h : entries.get? key = some value) : (key, value) ∈ entries := by
  obtain ⟨before, after, rfl, _⟩ := List.lookup_eq_some_iff.mp h
  exact List.mem_append_right before List.mem_cons_self

theorem Marks.lt_size_of_has {marks : Marks} {n : NodeId} (h : marks.has n = true) :
    n < marks.size := by
  by_contra hn
  rw [Marks.has, Array.getElem?_eq_none (Nat.le_of_not_lt hn)] at h
  cases h

/-- whether the command can change nodes or links, apart from what dies after it -/
def Command.changesForest : Command → Bool
  | .create _ | .chain _ _ | .fan _ _ _ | .edit _ => true
  | _ => false

namespace Session

/-! ## the invariant -/

/-- what every command keeps, before the dead are let go of and after -/
structure WellFormed (s : Session) : Prop where
  linked : s.forest.Linked
  size_held : s.held.size = s.forest.size
  anchors_lt : ∀ entry ∈ s.saved, ∀ n ∈ entry.2.anchors, n < s.forest.size

theorem wellFormed_start : start.WellFormed where
  linked := by
    have hnode : ∀ n, Forest.empty.node n = Node.fresh "" :=
      fun n => Forest.node_of_size_le (Nat.zero_le n)
    refine ⟨fun p b => ?_, fun p => ?_, ⟨fun _ => 0, fun b p hp => ?_⟩⟩
    · show b ∈ (Forest.empty.node p).branches ↔ (Forest.empty.node b).parent = some p
      rw [hnode, hnode]
      exact ⟨fun hb => (by cases hb), fun hp => (by cases hp)⟩
    · show (Forest.empty.node p).branches.Nodup
      rw [hnode]
      exact List.nodup_nil
    · replace hp : (Forest.empty.node b).parent = some p := hp
      rw [hnode] at hp
      cases hp
  size_held := rfl
  anchors_lt entry hentry := by cases hentry

theorem lookup_of_get? {s : Session} {label : String} {saved : Saved}
    (h : s.saved.get? label = some saved) : s.lookup label = .ok saved := by
  rw [lookup, h]

/-- what is found under a label keeps what it refers to -/
theorem anchored_of_lookup {s : Session} {label : String} {saved : Saved}
    (h : s.lookup label = .ok saved) {m : NodeId} (hm : m ∈ saved.anchors) : s.Anchored m := by
  rw [lookup] at h
  cases hfound : s.saved.get? label with
  | none =>
    rw [hfound] at h
    cases h
  | some found =>
    rw [hfound] at h
    cases h
    exact .inr ⟨(label, saved), Dictionary.mem_of_get? hfound, hm⟩

namespace WellFormed

variable {s : Session} (h : s.WellFormed)
include h

theorem lt_size_of_held {n : NodeId} (hn : s.held.has n = true) : n < s.forest.size := by
  rw [← h.size_held]
  exact Marks.lt_size_of_has hn

theorem has_anchored_iff {n : NodeId} : s.anchored.has n = true ↔ s.Anchored n := by
  rw [Session.has_anchored_iff]
  constructor
  · rintro (hn | ⟨hn, _⟩)
    · exact Or.inl hn
    · exact Or.inr hn
  · rintro (hn | ⟨entry, hentry, hn⟩)
    · exact Or.inl hn
    · refine Or.inr ⟨⟨entry, hentry, hn⟩, ?_⟩
      rw [h.size_held]
      exact h.anchors_lt entry hentry n hn

theorem lt_size_of_anchored {n : NodeId} (hn : s.Anchored n) : n < s.forest.size := by
  rcases hn with hn | ⟨entry, hentry, hn⟩
  · exact h.lt_size_of_held hn
  · exact h.anchors_lt entry hentry n hn

theorem lt_size_of_alive {n : NodeId} (hn : s.Alive n) : n < s.forest.size := by
  cases hn with
  | anchored ha => exact h.lt_size_of_anchored ha
  | branch _ hb => exact (h.linked.lt_size_of_parent ((h.linked.mem_branches_iff _ _).mp hb)).1

/-- the living are marked, found from below where they are kept from above -/
theorem has_living_iff {n : NodeId} : s.living.has n = true ↔ s.Alive n := by
  rw [living, h.linked.has_living_iff, alive_iff h.linked]
  simp only [h.has_anchored_iff]
  constructor
  · rintro ⟨_, hup⟩
    exact hup
  · intro hup
    exact ⟨h.lt_size_of_alive ((alive_iff h.linked).mpr hup), hup⟩

/-! ## settling -/

theorem settle : s.settle.WellFormed where
  linked := h.linked.settle s.anchored
  size_held := by
    show s.held.size = (s.forest.settle s.living).size
    rw [Forest.size_settle, h.size_held]
  anchors_lt entry hentry n hn := by
    show n < (s.forest.settle s.living).size
    rw [Forest.size_settle]
    exact h.anchors_lt entry hentry n hn

theorem living_settle : s.settle.living = s.living := h.linked.living_settle s.anchored

/-- settling costs no life -/
theorem alive_settle_iff {n : NodeId} : s.settle.Alive n ↔ s.Alive n := by
  rw [← h.settle.has_living_iff, h.living_settle, h.has_living_iff]

/-- after settling a link to the dead is no link -/
theorem parent_settle (b : NodeId) (hdead : ∀ p, (s.forest.node b).parent = some p → ¬ s.Alive p) :
    (s.settle.forest.node b).parent = none := by
  cases hp : (s.settle.forest.node b).parent with
  | none => rfl
  | some p =>
    obtain ⟨hp, _, hlive⟩ := Forest.parent_of_settle hp
    exact absurd (h.has_living_iff.mp hlive) (hdead p hp)

theorem settle_settle : s.settle.settle = s.settle := by
  show { s with forest := (s.forest.settle s.living).settle s.settle.living } =
    { s with forest := s.forest.settle s.living }
  rw [h.living_settle, Forest.settle_settle_of_imp _ fun _ hn => hn]

/-- where no more is left of the dead than remains, there is nothing to let go of -/
theorem settle_eq_of_remains
    (hdead : ∀ n, ¬ s.Alive n → s.forest.node n = (s.forest.node n).remains) : s.settle = s := by
  have hforest : s.forest.settle s.living = s.forest := by
    refine Forest.ext_node (Forest.size_settle _ _) fun n => ?_
    rw [Forest.node_settle]
    split
    · have hfilter : (s.forest.node n).parent.filter s.living.has = (s.forest.node n).parent := by
        cases hp : (s.forest.node n).parent with
        | none => rfl
        | some p =>
          have hlive : s.Alive p := by
            by_contra hpd
            have hbranch := (h.linked.mem_branches_iff p n).mpr hp
            rw [hdead p hpd] at hbranch
            cases hbranch
          rw [Option.filter_some, if_pos (h.has_living_iff.mpr hlive)]
      rw [hfilter]
    · rename_i hn
      exact (hdead n fun hlive => hn (h.has_living_iff.mpr hlive)).symm
  show { s with forest := s.forest.settle s.living } = s
  rw [hforest]

/-! ## commands -/

theorem grow {g : Forest} (hg : g.Linked) (hsize : s.forest.size ≤ g.size) :
    (s.grow g).WellFormed where
  linked := hg
  size_held := by
    show (s.held ++ Array.replicate (g.size - s.held.size) true).size = g.size
    rw [Array.size_append, Array.size_replicate, h.size_held]
    omega
  anchors_lt entry hentry n hn := Nat.lt_of_lt_of_le (h.anchors_lt entry hentry n hn) hsize

theorem save {label : String} {saved : Saved} (hsaved : ∀ n ∈ saved.anchors, n < s.forest.size) :
    (s.save label saved).WellFormed where
  linked := h.linked
  size_held := h.size_held
  anchors_lt entry hentry n hn := by
    rcases Dictionary.mem_put hentry with rfl | hold
    · exact hsaved n hn
    · exact h.anchors_lt entry hold n hn

theorem setHeld (n : NodeId) (flag : Bool) : { s with held := s.held.set n flag }.WellFormed where
  linked := h.linked
  size_held := by
    show (s.held.set n flag).size = s.forest.size
    rw [Marks.size_set, h.size_held]
  anchors_lt := h.anchors_lt

theorem ofListing_anchors_lt {n : NodeId} (hn : n < s.forest.size) (listing : Listing) :
    ∀ m ∈ (Saved.ofListing s.forest n listing).anchors, m < s.forest.size := by
  intro m hm
  cases listing with
  | branches => exact (h.linked.lt_size_of_parent ((h.linked.mem_branches_iff n m).mp hm)).1
  | enumeration =>
    obtain ⟨k, hk⟩ := (h.linked.mem_enumerate_append_self_iff (Nat.zero_lt_of_lt hn)).mp
      (List.mem_append_left [n] hm)
    exact h.linked.lt_size_of_below hn hk
  | attributes => cases hm
  | tags => cases hm

omit h in
/-- what is saved after a walk or an iterator went on refers to living nodes -/
theorem alive_of_next {label : String} {saved after : Saved} {k : Nat} {answer : Answer}
    (hlookup : s.lookup label = .ok saved) (hnext : saved.next s.forest k = .ok (answer, after)) :
    ∀ m ∈ after.anchors, s.Alive m :=
  Saved.anchors_next hnext (fun _ hn _ hb => .branch hn hb) fun _ hm =>
    .anchored (anchored_of_lookup hlookup hm)

theorem perform {c : Command} {done : Performed} (hc : ∀ n ∈ c.nodes, n < s.forest.size)
    (hdone : s.perform c = .ok done) : done.session.WellFormed := by
  cases c with
  | create name =>
    cases hdone
    exact h.grow (h.linked.plant name) (by rw [Forest.size_plant]; exact Nat.le_succ _)
  | chain stem count =>
    cases hdone
    exact h.grow (h.linked.plantChain _)
      (by rw [Forest.size_plantChain]; exact Nat.le_add_right _ _)
  | fan n stem count =>
    cases hdone
    exact h.grow (h.linked.plantBranches (hc n List.mem_cons_self) _)
      (by rw [Forest.size_plantBranches]; exact Nat.le_add_right _ _)
  | edit e =>
    obtain ⟨change, hchange, hadopt⟩ := Except.bind_eq_ok_iff.mp hdone
    cases hadopt
    obtain ⟨hlinked, hsize⟩ := h.linked.edit hc hchange
    exact ⟨hlinked, h.size_held.trans hsize.symm, fun entry hentry n hn =>
      hsize.symm ▸ h.anchors_lt entry hentry n hn⟩
  | ask n query => cases hdone; exact h
  | list n listing label =>
    obtain ⟨answer, _, hsave⟩ := Except.bind_eq_ok_iff.mp hdone
    cases hsave
    cases label with
    | none => exact h
    | some v => exact h.save (h.ofListing_anchors_lt (hc n List.mem_cons_self) listing)
  | read label =>
    obtain ⟨saved, _, hread⟩ := Except.bind_eq_ok_iff.mp hdone
    obtain ⟨answer, _, hanswer⟩ := Except.bind_eq_ok_iff.mp hread
    cases hanswer
    exact h
  | forget label =>
    cases hdone
    exact ⟨h.linked, h.size_held,
      fun entry hentry => h.anchors_lt entry (List.mem_filter.mp hentry).1⟩
  | openWalk n label =>
    cases hdone
    refine h.save fun m hm => ?_
    rw [Saved.mem_anchors_start hm]
    exact hc n List.mem_cons_self
  | openIterator n label =>
    cases hdone
    exact h.save fun m hm => (h.linked.lt_size_of_parent ((h.linked.mem_branches_iff n m).mp hm)).1
  | next label count =>
    obtain ⟨saved, hlookup, hnext⟩ := Except.bind_eq_ok_iff.mp hdone
    obtain ⟨⟨answer, after⟩, hafter, hsave⟩ := Except.bind_eq_ok_iff.mp hnext
    cases hsave
    exact h.save fun m hm => h.lt_size_of_alive (alive_of_next hlookup hafter m hm)
  | hold n path =>
    cases hdone
    show (s.hold n path).session.WellFormed
    rw [Session.hold]
    split
    · exact h
    · exact h.setHeld _ true
  | drop n => cases hdone; exact h.setHeld n false
  | logDump n channel level => cases hdone; exact h
  | setThreshold channel level => cases hdone; exact ⟨h.linked, h.size_held, h.anchors_lt⟩
  | duplicate n way => cases hdone
  | state => cases hdone; exact h

omit h in
theorem forest_of_attempt {c : Command} {done : Performed} (hc : c.changesForest = false)
    (hdone : s.attempt c = .ok done) : done.session.forest = s.forest := by
  rw [Session.attempt] at hdone
  split at hdone
  case isFalse => cases hdone
  case isTrue =>
    cases c with
    | list n listing label =>
      obtain ⟨answer, _, hsave⟩ := Except.bind_eq_ok_iff.mp hdone
      cases hsave
      cases label <;> rfl
    | read label =>
      obtain ⟨saved, _, hread⟩ := Except.bind_eq_ok_iff.mp hdone
      obtain ⟨answer, _, hanswer⟩ := Except.bind_eq_ok_iff.mp hread
      cases hanswer
      rfl
    | next label count =>
      obtain ⟨saved, _, hnext⟩ := Except.bind_eq_ok_iff.mp hdone
      obtain ⟨⟨answer, after⟩, _, hsave⟩ := Except.bind_eq_ok_iff.mp hnext
      cases hsave
      rfl
    | hold n path =>
      cases hdone
      show (s.hold n path).session.forest = s.forest
      rw [Session.hold]
      split <;> rfl
    | duplicate n way => cases hdone
    | create name => cases hc
    | chain stem count => cases hc
    | fan n stem count => cases hc
    | edit e => cases hc
    | _ => cases hdone; rfl

/-! ## steps and runs -/

theorem attempt {c : Command} {done : Performed} (hdone : s.attempt c = .ok done) :
    done.session.WellFormed := by
  rw [Session.attempt] at hdone
  split at hdone
  · rename_i hheld
    refine h.perform (fun n hn => ?_) hdone
    exact h.lt_size_of_held (List.all_eq_true.mp hheld n hn)
  · cases hdone

/-- a step ends with settling, whether the command was carried out or refused -/
theorem step (c : Command) :
    (s.step c).2.WellFormed ∧ (s.step c).2.settle = (s.step c).2 := by
  rw [Session.step]
  cases hdone : s.attempt c with
  | error e => exact ⟨h.settle, h.settle_settle⟩
  | ok done => exact ⟨(h.attempt hdone).settle, (h.attempt hdone).settle_settle⟩

theorem run (commands : List Command) (hs : s.settle = s) :
    (s.run commands).2.WellFormed ∧ (s.run commands).2.settle = (s.run commands).2 := by
  induction commands generalizing s with
  | nil => exact ⟨h, hs⟩
  | cons c rest ih =>
    obtain ⟨hstep, hsettle⟩ := h.step c
    exact ih hstep hsettle

end WellFormed

/-- an edit by held nodes that is not refused -/
theorem step_edit {t : Session} {e : Edit} {change : Change Answer}
    (hheld : ∀ n ∈ e.nodes, t.held.has n = true) (hedit : t.forest.edit e = .ok change) :
    t.step (.edit e) =
      (⟨.ok change.result, (t.adopt change).log⟩, { t with forest := change.forest }.settle) := by
  have hattempt : t.attempt (.edit e) = .ok (t.adopt change) := by
    have hall : (Command.edit e).nodes.all t.held.has = true := List.all_eq_true.mpr hheld
    rw [attempt, if_pos hall, perform, hedit]
    rfl
  rw [step, hattempt]
  rfl

theorem start_settle : start.settle = start := rfl

theorem run_append (s : Session) (first second : List Command) :
    s.run (first ++ second) =
      ((s.run first).1 ++ ((s.run first).2.run second).1, ((s.run first).2.run second).2) := by
  induction first generalizing s with
  | nil => rfl
  | cons c rest ih =>
    show ((s.step c).1 :: ((s.step c).2.run (rest ++ second)).1,
      ((s.step c).2.run (rest ++ second)).2) = _
    rw [ih]
    rfl

namespace Reachable

theorem after_run {s : Session} (h : s.Reachable) (commands : List Command) :
    (s.run commands).2.Reachable := by
  obtain ⟨before, rfl⟩ := h
  exact ⟨before ++ commands, by rw [run_append]⟩

theorem after_step {s : Session} (h : s.Reachable) (c : Command) : (s.step c).2.Reachable :=
  h.after_run [c]

theorem wellFormed {s : Session} (h : s.Reachable) : s.WellFormed := by
  obtain ⟨commands, rfl⟩ := h
  exact (wellFormed_start.run commands start_settle).1

theorem settle_eq {s : Session} (h : s.Reachable) : s.settle = s := by
  obtain ⟨commands, rfl⟩ := h
  exact (wellFormed_start.run commands start_settle).2

theorem linked {s : Session} (h : s.Reachable) : s.forest.Linked := h.wellFormed.linked

theorem lt_size_of_alive {s : Session} (h : s.Reachable) {n : NodeId} (hn : s.Alive n) :
    n < s.forest.size := h.wellFormed.lt_size_of_alive hn

theorem pos_size_of_alive {s : Session} (h : s.Reachable) {n : NodeId} (hn : s.Alive n) :
    0 < s.forest.size := Nat.zero_lt_of_lt (h.lt_size_of_alive hn)

/-- nothing is left of the dead but their names and attributes -/
theorem remains_of_dead {s : Session} (h : s.Reachable) {n : NodeId} (hn : ¬ s.Alive n) :
    s.forest.node n = (s.forest.node n).remains := by
  have hforest : s.forest.settle s.living = s.forest := congrArg Session.forest h.settle_eq
  have hmark : ¬ s.living.has n = true := fun hlive => hn (h.wellFormed.has_living_iff.mp hlive)
  conv_lhs => rw [← hforest, Forest.node_settle, if_neg hmark]

/-- no link leads to the dead or away from them -/
theorem alive_of_parent {s : Session} (h : s.Reachable) {b p : NodeId}
    (hp : (s.forest.node b).parent = some p) : s.Alive b ∧ s.Alive p := by
  have hforest : s.forest.settle s.living = s.forest := congrArg Session.forest h.settle_eq
  rw [← hforest] at hp
  obtain ⟨_, hb, hp⟩ := Forest.parent_of_settle hp
  exact ⟨h.wellFormed.has_living_iff.mp hb, h.wellFormed.has_living_iff.mp hp⟩

/-- what hangs from the living lives, and so does what they hang from -/
theorem alive_iff_of_ancestor? {s : Session} (h : s.Reachable) {k : Nat} {m a : NodeId}
    (ha : s.forest.ancestor? k m = some a) : s.Alive m ↔ s.Alive a := by
  induction k generalizing m with
  | zero =>
    cases ha
    exact Iff.rfl
  | succ k ih =>
    obtain ⟨p, hp, hup⟩ := Forest.exists_parent_of_ancestor?_succ ha
    rw [← ih hup]
    exact ⟨fun _ => (h.alive_of_parent hp).2, fun _ => (h.alive_of_parent hp).1⟩

/-- Nobody dies of new links between the living, or of the loss of a link above an anchor. -/
theorem settle_eq_of_links {s : Session} (h : s.Reachable) {g : Forest} (hg : g.Linked)
    (hsize : g.size = s.forest.size)
    (hlinks : ∀ b p, (s.forest.node b).parent = some p →
      (g.node b).parent = some p ∨ s.Anchored b)
    (hdead : ∀ m, ¬ s.Alive m → g.node m = s.forest.node m) :
    { s with forest := g }.settle = { s with forest := g } := by
  have hwell : { s with forest := g }.WellFormed :=
    ⟨hg, h.wellFormed.size_held.trans hsize.symm, fun entry hentry n hn =>
      hsize.symm ▸ h.wellFormed.anchors_lt entry hentry n hn⟩
  have halive : ∀ m, s.Alive m → { s with forest := g }.Alive m := by
    intro m hm
    induction hm with
    | anchored ha => exact .anchored ha
    | @branch p b _ hb ih =>
      rcases hlinks b p ((h.linked.mem_branches_iff p b).mp hb) with hp | ha
      · exact .branch ih ((hg.mem_branches_iff p b).mpr hp)
      · exact .anchored ha
  refine hwell.settle_eq_of_remains fun m hm => ?_
  have hold : ¬ s.Alive m := fun hlive => hm (halive m hlive)
  show g.node m = (g.node m).remains
  rw [hdead m hold]
  exact h.remains_of_dead hold

/-- An edit that changes held nodes only costs no life, so its step ends with the edited forest. -/
theorem step_edit_of_frame {s : Session} (h : s.Reachable) {e : Edit} {change : Change Answer}
    (hheld : ∀ n ∈ e.nodes, s.held.has n = true) (hedit : s.forest.edit e = .ok change)
    (hframe : ∀ m, m ∉ e.nodes → change.forest.node m = s.forest.node m) :
    s.step (.edit e) =
      (⟨.ok change.result, (s.adopt change).log⟩, { s with forest := change.forest }) := by
  obtain ⟨hlinked, hsize⟩ :=
    h.linked.edit (fun n hn => h.wellFormed.lt_size_of_held (hheld n hn)) hedit
  have hsettle := h.settle_eq_of_links hlinked hsize
    (fun b p hp => by
      by_cases hb : b ∈ e.nodes
      · exact .inr (.inl (hheld b hb))
      · exact .inl (by rw [hframe b hb, hp]))
    fun m hm => hframe m fun hin => hm (.anchored (.inl (hheld m hin)))
  rw [step_edit hheld hedit, hsettle]

/-- After every run the two directions of the links between living nodes agree, no branch is listed
twice, links lead to living nodes only, and every way up ends and meets no node twice. -/
theorem links_whole {s : Session} (h : s.Reachable) {a : NodeId} (ha : s.Alive a) :
    (∀ b, b ∈ (s.forest.node a).branches ↔ (s.forest.node b).parent = some a) ∧
      (s.forest.node a).branches.Nodup ∧
      (∀ c ∈ (s.forest.node a).branches, s.Alive c) ∧
      (∀ p, (s.forest.node a).parent = some p → s.Alive p) ∧
      ∃ k r, s.forest.ancestor? k a = some r ∧ (s.forest.node r).parent = none ∧
        ∀ i j, i < j → j ≤ k → s.forest.ancestor? i a ≠ s.forest.ancestor? j a := by
  have hl := h.linked
  refine ⟨hl.mem_branches_iff a, hl.nodup_branches a, fun c hc => Alive.branch ha hc,
    fun p hp => (h.alive_of_parent hp).2, s.forest.depth a, s.forest.root a, hl.ancestor?_depth a,
    hl.parent_root a, ?_⟩
  intro i j hij hj heq
  obtain ⟨c, hc, _⟩ := Forest.exists_ancestor?_of_le hj (hl.ancestor?_depth a)
  rw [hc] at heq
  have := hl.ancestor?_inj heq hc
  omega

end Reachable

/-- A chain of three nodes whose root died: the second node has no parent any longer.  Before, the
root was refused as a branch of the lowest node. -/
def orphaned : Session :=
  (start.run [.create "root", .create "stem", .create "leaf", .edit (.add 0 (.node 1)),
    .edit (.add 1 (.node 2)), .edit (.add 2 (.node 0)), .drop 0]).2

theorem reachable_orphaned : orphaned.Reachable := ⟨_, rfl⟩

theorem alive_orphaned : orphaned.Alive 1 ∧ orphaned.Alive 2 :=
  ⟨.anchored (.inl (by decide +kernel)), .anchored (.inl (by decide +kernel))⟩

theorem links_whole_orphaned :
    (orphaned.Reachable ∧ orphaned.Alive 1) ∧
      (∀ b, b ∈ (orphaned.forest.node 1).branches ↔ (orphaned.forest.node b).parent = some 1) ∧
      (orphaned.forest.node 1).branches.Nodup ∧
      (∀ c ∈ (orphaned.forest.node 1).branches, orphaned.Alive c) ∧
      (∀ p, (orphaned.forest.node 1).parent = some p → orphaned.Alive p) ∧
      ∃ k r, orphaned.forest.ancestor? k 1 = some r ∧ (orphaned.forest.node r).parent = none ∧
        ∀ i j, i < j → j ≤ k → orphaned.forest.ancestor? i 1 ≠ orphaned.forest.ancestor? j 1 :=
  ⟨⟨reachable_orphaned, alive_orphaned.1⟩,
    Reachable.links_whole reachable_orphaned alive_orphaned.1⟩

end Session
end Arbor
