import Arbor.Proofs.LazyWalks
import Arbor.Proofs.Survivors

/-!
# Walks between other commands

A walk that is saved in a session goes on whenever its items are asked for, and anything may be done
to the forest in between.  What a run gives of it is what following it through the forests at its
requests gives, one request for each item that was asked for.

* `Command.rebinds`     the commands after which a label stands for something else;
* `Session.requests`    the forests that the requests of a run meet;
* `Session.given`, `Session.exhausts`  what the replies of a run say of a walk;
* `Session.follow_of_run`   a run follows the walk;
* `WellFormed.step_next_settle`  a walk does not meet the dead;
* `Reachable.run_next_add`  asking for many items at once is asking for some and then for the rest;
* `Reachable.lazy_walk_lists_occurrences`  what a walk lists that is advanced to its end.
-/

namespace Arbor

/-! ## requests and replies -/

namespace Command

/-- whether the command makes a label stand for something else, or for nothing -/
def rebinds (label : String) : Command → Bool
  | .list _ _ (some l) | .forget l | .openWalk _ l | .openIterator _ l => l = label
  | _ => false

/-- whether the command asks for the next items of a label -/
def advances (label : String) : Command → Bool
  | .next l _ => l = label
  | _ => false

/-- the forest that the command meets, once for each item of the label that it asks for -/
def requests (label : String) (f : Forest) : Command → List Forest
  | .next l k => if l = label then List.replicate k f else []
  | _ => []

theorem advances_eq_true_iff {label : String} {c : Command} :
    c.advances label = true ↔ ∃ k, c = .next label k := by
  constructor
  · intro hc
    cases c with
    | next l k =>
      cases of_decide_eq_true hc
      exact ⟨k, rfl⟩
    | _ => cases hc
  · rintro ⟨k, rfl⟩
    exact decide_eq_true rfl

theorem requests_of_advances_eq_false {label : String} {c : Command} (h : c.advances label = false)
    (f : Forest) : c.requests label f = [] := by
  cases c with
  | next l k => exact if_neg (of_decide_eq_false h)
  | _ => rfl

theorem requests_next (label : String) (f : Forest) (k : Nat) :
    (Command.next label k).requests label f = List.replicate k f := if_pos rfl

end Command

namespace Reply

/-- the visits that a reply gives out -/
def visits (r : Reply) : List Visit :=
  match r.outcome with
  | .ok (.nextVisits vs _) => vs
  | _ => []

/-- whether a reply says that the walk has ended -/
def ended (r : Reply) : Bool :=
  match r.outcome with
  | .ok (.nextVisits _ e) => e
  | _ => false

end Reply

namespace Session

/-- the replies of a run to those of its commands that ask for items of a label -/
def served (s : Session) (label : String) (commands : List Command) : List Reply :=
  ((commands.zip (s.run commands).1).filter fun asked => asked.1.advances label).map Prod.snd

/-- all visits that a run gives out of a label -/
def given (s : Session) (label : String) (commands : List Command) : List Visit :=
  (s.served label commands).flatMap Reply.visits

/-- whether a run advances the walk of a label to its end -/
def exhausts (s : Session) (label : String) (commands : List Command) : Bool :=
  (s.served label commands).any Reply.ended

/-- the forests that the requests for items of a label meet during a run -/
def requests (s : Session) (label : String) : List Command → List Forest
  | [] => []
  | c :: rest => c.requests label s.forest ++ (s.step c).2.requests label rest

/-- for each visit of a label the branches of its node when the item after it was asked for -/
def reads (s : Session) (label : String) (commands : List Command) : List (List NodeId) :=
  Walk.reads (s.requests label commands) (s.given label commands)

theorem served_cons (s : Session) (label : String) (c : Command) (rest : List Command) :
    s.served label (c :: rest) =
      (if c.advances label then [(s.step c).1] else []) ++ (s.step c).2.served label rest := by
  show (((c, (s.step c).1) :: rest.zip ((s.step c).2.run rest).1).filter _).map Prod.snd = _
  rw [List.filter_cons]
  show (if c.advances label = true then _ else _ : List _).map Prod.snd = _
  split <;> rfl

theorem served_append (s : Session) (label : String) (first second : List Command) :
    s.served label (first ++ second) =
      s.served label first ++ (s.run first).2.served label second := by
  induction first generalizing s with
  | nil => rfl
  | cons c rest ih =>
    rw [List.cons_append, served_cons, ih, served_cons, List.append_assoc]
    rfl

theorem given_append (s : Session) (label : String) (first second : List Command) :
    s.given label (first ++ second) = s.given label first ++ (s.run first).2.given label second := by
  rw [given, served_append, List.flatMap_append]
  rfl

/-! ## the walk under its label -/

/-- a command that neither rebinds a label nor asks for its items leaves it alone -/
theorem saved_step {s : Session} {label : String} {c : Command} (hkeep : c.rebinds label = false)
    (hother : c.advances label = false) :
    (s.step c).2.saved.get? label = s.saved.get? label := by
  have hattempt : ∀ done, s.attempt c = .ok done →
      done.session.saved.get? label = s.saved.get? label := by
    intro done hdone
    rw [attempt] at hdone
    split at hdone
    case isFalse => cases hdone
    case isTrue =>
      cases c with
      | edit e =>
        obtain ⟨change, _, hadopt⟩ := Except.bind_eq_ok_iff.mp hdone
        cases hadopt
        rfl
      | list n listing l =>
        obtain ⟨answer, _, hsave⟩ := Except.bind_eq_ok_iff.mp hdone
        cases hsave
        cases l with
        | none => rfl
        | some l => exact Dictionary.get?_put_of_ne (Ne.symm (of_decide_eq_false hkeep)) _ _
      | read l =>
        obtain ⟨saved, _, hread⟩ := Except.bind_eq_ok_iff.mp hdone
        obtain ⟨answer, _, hanswer⟩ := Except.bind_eq_ok_iff.mp hread
        cases hanswer
        rfl
      | forget l =>
        cases hdone
        exact Dictionary.get?_erase_of_ne (Ne.symm (of_decide_eq_false hkeep)) _
      | openWalk n l =>
        cases hdone
        exact Dictionary.get?_put_of_ne (Ne.symm (of_decide_eq_false hkeep)) _ _
      | openIterator n l =>
        cases hdone
        exact Dictionary.get?_put_of_ne (Ne.symm (of_decide_eq_false hkeep)) _ _
      | next l k =>
        obtain ⟨saved, _, hnext⟩ := Except.bind_eq_ok_iff.mp hdone
        obtain ⟨⟨answer, after⟩, _, hsave⟩ := Except.bind_eq_ok_iff.mp hnext
        cases hsave
        exact Dictionary.get?_put_of_ne (Ne.symm (of_decide_eq_false hother)) _ _
      | hold n path =>
        cases hdone
        show (s.hold n path).session.saved.get? label = _
        rw [hold]
        split <;> rfl
      | duplicate n way => cases hdone
      | _ => cases hdone; rfl
  rw [step]
  cases hdone : s.attempt c with
  | error e => rfl
  | ok done => exact hattempt done hdone

theorem next_walk (f : Forest) (k : Nat) (n : NodeId) (w : Walk) :
    (Saved.walk n w).next f k =
      .ok (.nextVisits (w.follow (List.replicate k f)).1
          (decide ((w.follow (List.replicate k f)).1.length < k)),
        .walk n (w.follow (List.replicate k f)).2) := by
  rw [Saved.next, Walk.take_eq_follow]

/-- asking for items of a walk follows it through the forest as it is -/
theorem step_next {s : Session} {label : String} {n : NodeId} {w : Walk}
    (hw : s.saved.get? label = some (.walk n w)) (k : Nat) :
    s.step (.next label k) =
      (⟨.ok (.nextVisits (w.follow (List.replicate k s.forest)).1
          (decide ((w.follow (List.replicate k s.forest)).1.length < k))), []⟩,
        (s.save label (.walk n (w.follow (List.replicate k s.forest)).2)).settle) := by
  have hattempt : s.attempt (.next label k) =
      .ok (.silent (.nextVisits (w.take s.forest k).1 (w.take s.forest k).2.1)
        (s.save label (.walk n (w.take s.forest k).2.2))) := by
    show (s.lookup label >>= fun saved => saved.next s.forest k >>= _) = _
    rw [lookup_of_get? hw]
    rfl
  rw [step, hattempt, Walk.take_eq_follow]
  rfl

/-- A run follows the walk that is saved under a label, whatever else it does. -/
theorem follow_of_run {s : Session} {label : String} {n : NodeId} {w : Walk}
    {commands : List Command}
    (hw : s.saved.get? label = some (.walk n w))
    (hkeep : ∀ c ∈ commands, c.rebinds label = false) :
    s.given label commands = (w.follow (s.requests label commands)).1 ∧
      (s.exhausts label commands = true ↔
        (s.given label commands).length < (s.requests label commands).length) ∧
      (s.run commands).2.saved.get? label =
        some (.walk n (w.follow (s.requests label commands)).2) := by
  induction commands generalizing s w with
  | nil => exact ⟨rfl, ⟨fun he => (by cases he), fun hl => (by cases hl)⟩, hw⟩
  | cons c rest ih =>
    have hc := hkeep c List.mem_cons_self
    have hrest : ∀ d ∈ rest, d.rebinds label = false := fun d hd =>
      hkeep d (List.mem_cons_of_mem c hd)
    rw [given, exhausts, served_cons, requests]
    show _ ∧ _ ∧ ((s.step c).2.run rest).2.saved.get? label = _
    cases ha : c.advances label with
    | false =>
      have hsaved := saved_step hc ha (s := s)
      rw [Command.requests_of_advances_eq_false ha]
      exact ih (hsaved.trans hw) hrest
    | true =>
      obtain ⟨k, rfl⟩ := Command.advances_eq_true_iff.mp ha
      rw [Command.requests_next, step_next hw, if_pos rfl]
      have hafter := Dictionary.get?_put_self label
        (Saved.walk n (w.follow (List.replicate k s.forest)).2) s.saved
      obtain ⟨hgiven, hexhausts, hlast⟩ := ih
        (s := (s.save label (.walk n (w.follow (List.replicate k s.forest)).2)).settle) hafter hrest
      have hle := Walk.length_follow_le (List.replicate k s.forest) w
      have hle' := Walk.length_follow_le
        ((s.save label (.walk n (w.follow (List.replicate k s.forest)).2)).settle.requests label rest)
        (w.follow (List.replicate k s.forest)).2
      rw [given] at hgiven hexhausts
      rw [exhausts, hgiven] at hexhausts
      rw [List.length_replicate] at hle
      rw [Walk.follow_append, List.flatMap_append, List.any_append, hgiven]
      refine ⟨?_, ?_, hlast⟩
      · rw [List.flatMap_singleton]
        rfl
      · rw [Bool.or_eq_true, hexhausts, List.flatMap_singleton, List.length_append,
          List.length_append, List.length_replicate, List.any_cons, List.any_nil, Bool.or_false]
        dsimp only [Reply.ended, Reply.visits]
        rw [decide_eq_true_iff]
        omega

/-! ## grouping the requests -/

namespace WellFormed

/-- who lives on does so in a forest that lost others already -/
theorem alive_forest_settle_iff {t u : Session} (ht : t.WellFormed) (hforest : u.forest = t.forest)
    (hless : ∀ n, u.Alive n → t.Alive n) {n : NodeId} :
    { u with forest := t.settle.forest }.Alive n ↔ u.Alive n := by
  have hbranches : ∀ m, u.Alive m →
      (t.settle.forest.node m).branches = (u.forest.node m).branches := by
    intro m hm
    rw [hforest]
    exact (Node.content_eq_iff.mp (ht.content_settle (hless m hm))).2.1
  constructor
  · intro hn
    induction hn with
    | anchored ha => exact .anchored ha
    | @branch p b _ hb ih => exact .branch ih (hbranches p ih ▸ hb)
  · intro hn
    induction hn with
    | anchored ha => exact .anchored ha
    | @branch p b hp hb ih => exact .branch ih ((hbranches p hp).symm ▸ hb)

/-- a session that lets go of more nodes ends the same if another one let go of some of them first -/
theorem settle_of_settle {t u : Session} (ht : t.WellFormed) (hu : u.WellFormed)
    (hforest : u.forest = t.forest) (hless : ∀ n, u.Alive n → t.Alive n) :
    { u with forest := t.settle.forest }.settle = u.settle := by
  have hsize : t.settle.forest.size = u.forest.size :=
    (Forest.size_settle t.forest t.living).trans (congrArg Forest.size hforest).symm
  have hwell : { u with forest := t.settle.forest }.WellFormed :=
    ⟨ht.settle.linked, hu.size_held.trans hsize.symm, fun entry hentry n hn =>
      hsize.symm ▸ hu.anchors_lt entry hentry n hn⟩
  have hmarks : ∀ n, { u with forest := t.settle.forest }.living.has n = u.living.has n := by
    intro n
    rw [Bool.eq_iff_iff, hwell.has_living_iff, hu.has_living_iff]
    exact ht.alive_forest_settle_iff hforest hless
  have hsettled : { u with forest := t.settle.forest }.settle.forest = u.settle.forest := by
    show (t.forest.settle t.living).settle _ = u.forest.settle u.living
    rw [Forest.settle_congr _ hmarks, hforest]
    exact Forest.settle_settle_of_imp _ fun n hn =>
      ht.has_living_iff.mpr (hless n (hu.has_living_iff.mp hn))
  show { u with forest := { u with forest := t.settle.forest }.settle.forest } = u.settle
  rw [hsettled]
  rfl

/-- Asking for items of a walk is the same before the dead are let go of and after, since none of
those on the walk is dead. -/
theorem step_next_settle {t : Session} (ht : t.WellFormed) {label : String} {n : NodeId} {w : Walk}
    (hw : t.saved.get? label = some (.walk n w)) (k : Nat) :
    t.settle.step (.next label k) =
      (⟨.ok (.nextVisits (w.follow (List.replicate k t.forest)).1
          (decide ((w.follow (List.replicate k t.forest)).1.length < k))), []⟩,
        (t.save label (.walk n (w.follow (List.replicate k t.forest)).2)).settle) := by
  have hbranches : ∀ m, t.Alive m → ∀ b ∈ (t.forest.node m).branches, t.Alive b :=
    fun m hm b hb => .branch hm hb
  have hwalk : ∀ m ∈ w.nodes, t.Alive m := by
    intro m hm
    by_cases hended : w = .finished
    · rw [hended] at hm
      cases hm
    · refine .anchored (anchored_of_lookup (lookup_of_get? hw) ?_)
      rw [Saved.anchors, if_neg hended]
      exact List.mem_cons_of_mem n hm
  have hfollow : w.follow (List.replicate k t.settle.forest) =
      w.follow (List.replicate k t.forest) :=
    Walk.follow_congr hwalk hbranches fun m hm =>
      (Node.content_eq_iff.mp (ht.content_settle hm)).2.1
  have hafter := alive_of_next (lookup_of_get? hw) (next_walk t.forest k n w)
  have hsaved : (t.save label (.walk n (w.follow (List.replicate k t.forest)).2)).WellFormed :=
    ht.save fun m hm => ht.lt_size_of_alive (hafter m hm)
  have hforest : (t.save label (.walk n (w.follow (List.replicate k t.forest)).2)).forest =
      t.forest := rfl
  have hsettle := ht.settle_of_settle hsaved hforest fun m =>
    alive_of_anchored_alive hforest fun a => alive_of_anchored_save hafter
  have hwsettle : t.settle.saved.get? label = some (.walk n w) := hw
  rw [step_next hwsettle, hfollow, ← hsettle]
  rfl

end WellFormed

namespace Reachable

/-- asking for many items of a walk at once is asking for some of them and then for the rest -/
theorem run_next_add {s : Session} (h : s.Reachable) {label : String} {n : NodeId} {w : Walk}
    (hw : s.saved.get? label = some (.walk n w)) (j k : Nat) :
    (s.run [.next label j, .next label k]).2 = (s.run [.next label (j + k)]).2 ∧
      s.given label [.next label j, .next label k] = s.given label [.next label (j + k)] := by
  have hafter := WellFormed.alive_of_next (lookup_of_get? hw) (next_walk s.forest j n w)
  have hsaved : (s.save label (.walk n (w.follow (List.replicate j s.forest)).2)).WellFormed :=
    h.wellFormed.save fun m hm => h.lt_size_of_alive (hafter m hm)
  have hfirst := step_next hw j
  have hsecond := hsaved.step_next_settle (Dictionary.get?_put_self label _ s.saved) k
  have hwhole := step_next hw (j + k)
  rw [List.replicate_add, Walk.follow_append] at hwhole
  constructor
  · show ((s.step (.next label j)).2.step (.next label k)).2 = (s.step (.next label (j + k))).2
    rw [hfirst, hsecond, hwhole]
    show (save (save s label _) label _).settle = (save s label _).settle
    rw [save, save, save, Dictionary.put_put]
  · have hasks : ∀ i, (Command.next label i).advances label = true := fun i => decide_eq_true rfl
    rw [given, given, served_cons, served_cons, served_cons, hfirst, hsecond, hwhole, hasks, hasks,
      hasks]
    exact (List.append_assoc _ _ _).symm

/-! ## whole walks -/

theorem step_openWalk {s : Session} {n : NodeId} (hn : s.held.has n = true) (label : String) :
    (s.step (.openWalk n label)).2 = (s.save label (.walk n (.start n))).settle := by
  have hheld : (Command.openWalk n label).nodes.all s.held.has = true :=
    List.all_eq_true.mpr fun m hm => (List.mem_singleton.mp hm) ▸ hn
  have hattempt : s.attempt (.openWalk n label) =
      .ok (.silent .nothing (s.save label (.walk n (.start n)))) := if_pos hheld
  rw [step, hattempt]
  rfl

theorem saved_step_openWalk {s : Session} {n : NodeId} (hn : s.held.has n = true) (label : String) :
    (s.step (.openWalk n label)).2.saved.get? label = some (.walk n (.start n)) := by
  rw [step_openWalk hn]
  exact Dictionary.get?_put_self label _ s.saved

/-- a whole run gives out the same and ends the same where one request is made in two -/
theorem regroup {s : Session} (h : s.Reachable) {label : String} {n : NodeId} {w : Walk}
    (hw : s.saved.get? label = some (.walk n w)) {before after : List Command} {j k : Nat}
    (hkeep : ∀ c ∈ before, c.rebinds label = false) :
    s.given label (before ++ .next label j :: .next label k :: after) =
        s.given label (before ++ .next label (j + k) :: after) ∧
      (s.run (before ++ .next label j :: .next label k :: after)).2 =
        (s.run (before ++ .next label (j + k) :: after)).2 := by
  have hmiddle := (follow_of_run hw hkeep).2.2
  obtain ⟨hlast, hgiven⟩ := (h.after_run before).run_next_add hmiddle j k
  have hsplit : before ++ .next label j :: .next label k :: after =
      before ++ ([.next label j, .next label k] ++ after) := rfl
  have hwhole : before ++ .next label (j + k) :: after =
      before ++ ([.next label (j + k)] ++ after) := rfl
  constructor
  · rw [hsplit, hwhole, given_append, given_append, given_append, given_append, hgiven, hlast]
  · rw [hsplit, hwhole, run_append, run_append, run_append, run_append, hlast]

/-- However the forest changes between its items, a walk that is advanced to its end lists the one
ordered tree that has its start at the top and, below each occurrence of a node, the branches that
the node had when the item after it was asked for.  So the depth grows by one after a node with
branches and does not grow after any other, and there is one item for the start and one for each
branch that was read.  It makes no difference how many items are asked for at once. -/
theorem lazy_walk_lists_occurrences {s opened : Session} (h : s.Reachable) {n : NodeId}
    (hn : s.held.has n = true) {label : String} (hopened : (s.step (.openWalk n label)).2 = opened)
    {commands : List Command} (hkeep : ∀ c ∈ commands, c.rebinds label = false)
    (hend : opened.exhausts label commands = true) :
    (∃! o : Occurrences, o.tops = [n] ∧ o.visits 0 = opened.given label commands ∧
      o.families = opened.reads label commands) ∧
    (∀ (i : Nat) (v v' : Visit) (branches : List NodeId),
      (opened.given label commands)[i]? = some v →
      (opened.given label commands)[i + 1]? = some v' →
      (opened.reads label commands)[i]? = some branches →
      v'.depth ≤ v.depth + 1 ∧ (v'.depth = v.depth + 1 ↔ branches ≠ [])) ∧
    (opened.reads label commands).length = (opened.given label commands).length ∧
    (opened.given label commands).length =
      1 + ((opened.reads label commands).map List.length).sum ∧
    ∀ before after j k, commands = before ++ .next label (j + k) :: after →
      opened.given label (before ++ .next label j :: .next label k :: after) =
        opened.given label commands ∧
      (opened.run (before ++ .next label j :: .next label k :: after)).2 =
        (opened.run commands).2 := by
  have hw : opened.saved.get? label = some (.walk n (.start n)) :=
    hopened ▸ saved_step_openWalk hn label
  have hreachable : opened.Reachable := hopened ▸ h.after_step _
  obtain ⟨hgiven, hexhausts, _⟩ := follow_of_run hw hkeep
  have hshort := hexhausts.mp hend
  rw [reads, hgiven]
  rw [hgiven] at hshort
  obtain ⟨o, htops, hvisits, hfamilies⟩ := Walk.occurrences_of_follow hshort
  refine ⟨⟨o, ⟨htops, hvisits, hfamilies⟩, ?_⟩, ?_, ?_, ?_, ?_⟩
  · rintro o' ⟨htops', _, hfamilies'⟩
    exact Occurrences.eq_of_families (htops'.trans htops.symm) (hfamilies'.trans hfamilies.symm)
  · intro i v v' branches hv hv' hread
    exact Walk.depth_follow hv hv' hread
  · rw [← hfamilies, ← hvisits]
    exact o.length_families 0
  · rw [← hfamilies, ← hvisits, o.length_visits, htops]
    rfl
  · rintro before after j k rfl
    rw [← hgiven]
    exact hreachable.regroup hw fun c hc => hkeep c (List.mem_append_left _ hc)

end Reachable

/-- a root with two branches, and a node that stands alone -/
def quartet : Session :=
  (start.run [.create "root", .create "left", .create "right", .create "loner",
    .edit (.add 0 (.node 1)), .edit (.add 0 (.node 2))]).2

theorem reachable_quartet : quartet.Reachable := ⟨_, rfl⟩

/-- the loner is put below the left branch after that was visited, and the right branch, which waits
for its visit already, is moved below the loner after that was visited in turn -/
def meddling : List Command :=
  [.next "walk" 2, .edit (.add 1 (.node 3)), .edit (.remove 0 (.node 2)), .next "walk" 1,
    .edit (.add 3 (.node 2)), .next "walk" 5]

/-- The right branch is visited twice, in a tree that never was. -/
theorem lazy_walk_lists_occurrences_quartet :
    (quartet.Reachable ∧ quartet.held.has 0 = true ∧
        (∀ c ∈ meddling, c.rebinds "walk" = false) ∧
        (quartet.step (.openWalk 0 "walk")).2.exhausts "walk" meddling = true) ∧
      (∃! o : Occurrences, o.tops = [0] ∧
        o.visits 0 = [⟨0, 0⟩, ⟨1, 1⟩, ⟨2, 3⟩, ⟨3, 2⟩, ⟨1, 2⟩] ∧
        o.families = [[1, 2], [3], [2], [], []]) ∧
      (quartet.step (.openWalk 0 "walk")).2.given "walk"
        (.next "walk" 1 :: .next "walk" 1 :: meddling.tail) =
          [⟨0, 0⟩, ⟨1, 1⟩, ⟨2, 3⟩, ⟨3, 2⟩, ⟨1, 2⟩] := by
  have hheld : quartet.held.has 0 = true := by decide +kernel
  have hkeep : ∀ c ∈ meddling, c.rebinds "walk" = false := by decide +kernel
  have hend : (quartet.step (.openWalk 0 "walk")).2.exhausts "walk" meddling = true := by
    decide +kernel
  have hgiven : (quartet.step (.openWalk 0 "walk")).2.given "walk" meddling =
      [⟨0, 0⟩, ⟨1, 1⟩, ⟨2, 3⟩, ⟨3, 2⟩, ⟨1, 2⟩] := by decide +kernel
  have hreads : (quartet.step (.openWalk 0 "walk")).2.reads "walk" meddling =
      [[1, 2], [3], [2], [], []] := by decide +kernel
  obtain ⟨htree, -, -, -, hgroup⟩ :=
    Reachable.lazy_walk_lists_occurrences reachable_quartet hheld rfl hkeep hend
  rw [hgiven, hreads] at htree
  exact ⟨⟨reachable_quartet, hheld, hkeep, hend⟩, htree,
    (hgroup [] meddling.tail 1 1 rfl).1.trans hgiven⟩

end Session
end Arbor
