import Stepwise.Proofs.Ownership
import Stepwise.Proofs.Refusals

/-! Sessions that share a top level. Each of them writes what is its own and nothing else, and neither what
it answers nor what it prints depends on scopes it does not know of. So it comes to what it would have come
to alone, whatever the others are asked for in between.

The writer of the top level is not the sessions' own. Anybody may print to it, and what it makes of a text
may depend on all that it has been given. So for a session that is alone the writer is given the same; and
where that makes no difference to it, or it refuses nothing, nobody needs to write in the others' place. -/

namespace Stepwise

open Execution

/-- A writer whose answers do not depend on what it has been given before. -/
def Writer.Forgets (writer : Writer) : Prop := ∀ before before' line, writer before' line = writer before line

theorem Writer.Forgets.confuses {writer : Writer} (h : writer.Forgets) (out out' : Array Bytes) :
    (primitivesOn writer).Confuses out out' := by
  intro more n s scope args
  have hwrite (line : Bytes) :
      Primitive.write writer line (out' ++ more) = Primitive.write writer line (out ++ more) := by
    rw [Primitive.write, Primitive.write, h (out ++ more) (out' ++ more) line]
  simp only [primitivesOn, Primitive.call, hwrite]

/-- Options of a session that lives on a top level with others. -/
structure SessionOptions.Shares (o : SessionOptions) (root : ScopeId) (writer : Writer) : Prop where
  host : o.setting.host = primitivesOn writer
  root : o.root = root
  scalar : ∀ entry ∈ o.seeds.entries, entry.2.isScalar

theorem SessionOptions.Shares.seedsNoLoops {o : SessionOptions} {root : ScopeId} {writer : Writer}
    (h : o.Shares root writer) : o.SeedsNoLoops :=
  seedsNoLoops_of_scalar h.scalar

/-- A session between two requests, with all that it has written and answered. -/
structure Room where
  session : Session
  written : Array Bytes
  heard : List Answer

/-- Sessions that share a store, and so all that is in it, and a writer with all that it has been given. -/
structure House (ι : Type) where
  store : Store
  written : Array Bytes
  rooms : ι → Option Room

/-- One of the sessions is started, or is asked for something and canceled after so many polls. -/
structure Turn (ι : Type) where
  who : ι
  polls : Nat
  what : Option Request

/-- A session takes its turn, or somebody else writes to the writer of the house. -/
inductive Event (ι : Type) where
  | turn (t : Turn ι)
  | writes (texts : List Bytes)

def Room.live (room : Room) (store : Store) (written : Array Bytes) (polls : Nat) : Live :=
  ⟨room.session, store, written, polls⟩

namespace House

variable {ι : Type}

def empty (base : Store) : House ι := ⟨base, #[], fun _ => none⟩

/-- What has been written since the house was like this. -/
def since (h : House ι) (written : Array Bytes) : List Bytes := written.toList.drop h.written.size

variable [DecidableEq ι]

/-- Leaves a session as it is now, which had written and answered so much before. -/
def settle (h : House ι) (i : ι) (l : Live) (written : Array Bytes) (heard : List Answer) : House ι :=
  let texts := h.since l.world.written
  ⟨l.world.store, h.written ++ texts, Function.update h.rooms i (some ⟨l.session, written ++ texts, heard⟩)⟩

/-- Nobody answers a request to a session that has not been started. -/
def turn (o : ι → SessionOptions) (h : House ι) (t : Turn ι) : House ι :=
  match t.what, h.rooms t.who with
  | none, _ => h.settle t.who ((o t.who).start ⟨h.store, h.written, t.polls⟩) #[] []
  | some request, some room =>
    let l := room.live h.store h.written t.polls
    h.settle t.who (l.perform request.action) room.written (room.heard ++ [l.answer request])
  | some _, none => h

def take (o : ι → SessionOptions) (h : House ι) : Event ι → House ι
  | .turn t => h.turn o t
  | .writes texts => { h with written := h.written ++ texts }

def follow (o : ι → SessionOptions) (h : House ι) (events : List (Event ι)) : House ι :=
  events.foldl (take o) h

/-- None of the answers that the session has heard tells of a print that the writer has refused. -/
def Granted (writer : Writer) (i : ι) (h : House ι) : Prop :=
  ∀ room, h.rooms i = some room → ∀ a ∈ room.heard, ¬ a.TellsOfRefusal writer

/-- So it is at all times. -/
def AlwaysGranted (writer : Writer) (o : ι → SessionOptions) (i : ι) (h : House ι)
    (events : List (Event ι)) : Prop :=
  ∀ before, before <+: events → (h.follow o before).Granted writer i

end House

/-- Nothing tells the rooms apart: the sessions stand at the same place with the same loops under way, and
they have bound, written, traced and answered the same. -/
structure Room.Alike (k : Link) (s t : Store) (a b : Room) : Prop where
  options : b.session.options = a.session.options
  loaded : b.session.loaded = a.session.loaded
  scope : k.scope a.session.scope b.session.scope
  location : b.session.location = a.session.location
  result : a.session.result.Linked k b.session.result
  frames : t.frames b.session.scope = s.frames a.session.scope
  bindings : (s.bindings a.session.scope).Linked k (t.bindings b.session.scope)
  written : b.written = a.written
  trace : b.session.trace = a.session.trace
  heard : List.Forall₂ (Answer.Linked k) a.heard b.heard

theorem Live.Linked.alike {k : Link} {l l' : Live} (h : l.Linked k l') {written written' : Array Bytes}
    (hwritten : written' = written) (htrace : l'.session.trace = l.session.trace)
    {heard heard' : List Answer} (hheard : List.Forall₂ (Answer.Linked k) heard heard') :
    Room.Alike k l.world.store l'.world.store ⟨l.session, written, heard⟩ ⟨l'.session, written', heard'⟩ where
  options := h.options
  loaded := h.loaded
  scope := h.scope
  location := h.location
  result := h.result
  frames := h.store.frames_eq h.scope
  bindings := h.store.bindings h.scope
  written := hwritten
  trace := htrace
  heard := hheard

theorem Room.Alike.live {k : Link} {s t : Store} {a b : Room} (h : a.Alike k s t b) (hst : s.Linked k t)
    (out out' : Array Bytes) (polls : Nat) : (a.live s out polls).Linked k (b.live t out' polls) :=
  ⟨h.options, h.loaded, h.scope, h.location, h.result, hst⟩

/-- A session keeps to a scope and a loop stack that were not there at first. -/
structure Live.Settled (base : Store) (o : SessionOptions) (l : Live) : Prop where
  options : l.session.options = o
  housed : l.Housed
  scope : base.nextScope ≤ l.session.scope
  loops : ∀ ref, l.world.store.loops? l.session.scope = some ref →
    base.nextStack ≤ ref ∧ ref < l.world.store.nextStack

namespace House

variable {ι : Type} {base : Store} {o : ι → SessionOptions} {h alone : House ι} {i j : ι}
  {scope : ScopeId} {l : Live} {k : Link}

/-- What was there at first is as it was, and no two sessions share a scope. -/
structure Sound (base : Store) (o : ι → SessionOptions) (h : House ι) : Prop where
  size : base.nextScope ≤ h.store.nextScope
  scopes : ∀ id, id < base.nextScope → h.store.scopes[id]? = base.scopes[id]?
  count : base.nextStack ≤ h.store.nextStack
  stack : ∀ ref, ref < base.nextStack → h.store.stack ref = base.stack ref
  rooms : ∀ i room, h.rooms i = some room → (room.live h.store #[] 0).Settled base (o i)
  apart : ∀ i j a b, h.rooms i = some a → h.rooms j = some b → i ≠ j → a.session.scope ≠ b.session.scope

/-- What the turn of a session comes to: the session has written its own scope, or one that it has made,
and has its own loop stack or one that it has made. -/
structure Goes (h : House ι) (o : SessionOptions) (i : ι) (scope : ScopeId) (l : Live) : Prop where
  own : (∃ a, h.rooms i = some a ∧ a.session.scope = scope) ∨ h.store.nextScope ≤ scope
  touches : h.store.Touches scope l.world.store
  options : l.session.options = o
  housed : l.Housed
  place : l.session.scope = scope ∨ h.store.nextScope ≤ l.session.scope
  loops : ∀ ref, l.world.store.loops? l.session.scope = some ref →
    h.store.loops? scope = some ref ∨ h.store.nextStack ≤ ref ∧ ref < l.world.store.nextStack

namespace Goes

/-- Nobody else lives in the scope that is written, nor in the one that the session goes to. -/
theorem apart (hg : h.Goes (o i) i scope l) (hs : h.Sound base o) (hne : j ≠ i) {b : Room}
    (hb : h.rooms j = some b) : b.session.scope ≠ scope ∧ b.session.scope ≠ l.session.scope := by
  have hlt : b.session.scope < h.store.nextScope := (hs.rooms j b hb).housed.scope_lt
  have hscope : b.session.scope ≠ scope := by
    obtain ⟨a, ha, rfl⟩ | hnew := hg.own
    · exact hs.apart j i b a hb ha hne
    · exact Nat.ne_of_lt (Nat.lt_of_lt_of_le hlt hnew)
  refine ⟨hscope, ?_⟩
  obtain heq | hnew := hg.place
  · rwa [heq]
  · exact Nat.ne_of_lt (Nat.lt_of_lt_of_le hlt hnew)

theorem loops_others (hg : h.Goes (o i) i scope l) (hs : h.Sound base o) (hne : j ≠ i) {b : Room}
    (hb : h.rooms j = some b) :
    l.world.store.loops? b.session.scope = h.store.loops? b.session.scope :=
  Store.loops?_congr (hg.touches.others _ (hs.rooms j b hb).housed.scope_lt (hg.apart hs hne hb).1)

end Goes

variable {root : ScopeId} {writer : Writer}

theorem goes_start (ho : ∀ i, (o i).Shares root writer) (h : House ι) (i : ι) (polls : Nat) :
    h.Goes (o i) i h.store.nextScope ((o i).start ⟨h.store, h.written, polls⟩) where
  own := .inr (Nat.le_refl _)
  touches := {
    size := by simp [SessionOptions.start, SessionOptions.addScope, Store.extend]
    others id hid _ := by
      simp [SessionOptions.start, SessionOptions.addScope, Store.extend, Array.getElem?_push,
        Nat.ne_of_lt hid]
    count := Nat.le_refl _
    kept _ _ _ := rfl
    loops ref href := by
      cases (SessionOptions.loops?_addScope (ho i).seedsNoLoops h.store).symm.trans href
    closures := Nat.le_refl _ }
  options := rfl
  housed := by
    refine ⟨(SessionOptions.addScope_ready (ho i).seedsNoLoops h.store).1.scope_lt, fun d hd => ?_⟩
    cases hd
  place := .inl rfl
  loops ref href := by
    cases (SessionOptions.loops?_addScope (ho i).seedsNoLoops h.store).symm.trans href

/-- One session of the house is as it is in the other house, where it is alone, and nothing that links
lead to belongs to anybody else. -/
structure Mirrors (base : Store) (i : ι) (k : Link) (alone h : House ι) : Prop where
  linked : alone.store.Linked k h.store
  base : Link.self base ≤ k
  room : Option.Rel (fun a b => a.Alike k alone.store h.store b) (alone.rooms i) (h.rooms i)
  scope : ∀ j b, j ≠ i → h.rooms j = some b → ∀ id, ¬ k.scope id b.session.scope
  stack : ∀ j b ref, j ≠ i → h.rooms j = some b → h.store.loops? b.session.scope = some ref →
    ∀ id, ¬ k.stack id ref

/-- A session is in this house as it is in the other one, up to a link that leads all there was at first to
itself. -/
def Same (base : Store) (i : ι) (alone together : House ι) : Prop :=
  ∃ k, Link.self base ≤ k ∧ alone.store.Linked k together.store ∧
    Option.Rel (fun a b => a.Alike k alone.store together.store b) (alone.rooms i) (together.rooms i)

theorem Same.room {together : House ι} (h : alone.Same base i together) {b : Room}
    (hb : together.rooms i = some b) :
    ∃ k a, alone.rooms i = some a ∧ a.Alike k alone.store together.store b := by
  obtain ⟨k, -, -, hroom⟩ := h
  rw [hb] at hroom
  generalize alone.rooms i = x at hroom
  cases hroom with
  | some hab => exact ⟨k, _, rfl, hab⟩

theorem Mirrors.same (hm : Mirrors base i k alone h) : Same base i alone h :=
  ⟨k, hm.base, hm.linked, hm.room⟩

theorem Granted.last (hg : h.Granted writer i) {session : Session} {written : Array Bytes}
    {heard : List Answer} {a : Answer} (hroom : h.rooms i = some ⟨session, written, heard ++ [a]⟩) :
    ¬ a.TellsOfRefusal writer :=
  hg _ hroom a List.mem_concat_self

theorem since_append (h : House ι) (texts : List Bytes) : h.since (h.written ++ texts) = texts := by
  simp [since]

variable [DecidableEq ι]

theorem settle_self (h : House ι) (i : ι) (l : Live) (written : Array Bytes) (heard : List Answer) :
    (h.settle i l written heard).rooms i =
      some ⟨l.session, written ++ h.since l.world.written, heard⟩ :=
  Function.update_self ..

theorem settle_of_ne (hne : j ≠ i) (h : House ι) (l : Live) (written : Array Bytes) (heard : List Answer) :
    (h.settle i l written heard).rooms j = h.rooms j :=
  Function.update_of_ne hne ..

namespace AlwaysGranted

variable {e : Event ι} {events : List (Event ι)}

theorem head (hg : h.AlwaysGranted writer o i (e :: events)) : (h.take o e).Granted writer i :=
  hg [e] (List.prefix_append [e] events)

theorem tail (hg : h.AlwaysGranted writer o i (e :: events)) :
    (h.take o e).AlwaysGranted writer o i events :=
  fun before hbefore => hg (e :: before) (List.cons_prefix_cons.mpr ⟨rfl, hbefore⟩)

end AlwaysGranted

namespace Mirrors

/-- The session's own turn comes to the same in both houses. -/
theorem settle (hm : Mirrors base i k alone h) (hs : h.Sound base o) {l l' : Live} {k' : Link}
    (hg : h.Goes (o i) i scope l') (honward : k.Onward h.store k' l'.world.store) (hlinked : l.Linked k' l')
    {texts : List Bytes} (hwritten : l.world.written = alone.written ++ texts)
    (hwritten' : l'.world.written = h.written ++ texts) (htrace : l'.session.trace = l.session.trace)
    (written : Array Bytes) {heard heard' : List Answer}
    (hheard : List.Forall₂ (Answer.Linked k') heard heard') :
    Mirrors base i k' (alone.settle i l written heard) (h.settle i l' written heard') ∧
      (alone.settle i l written heard).written = alone.written ++ texts ∧
      (h.settle i l' written heard').written = h.written ++ texts := by
  have hsince : alone.since l.world.written = texts := by rw [hwritten, since_append]
  have hsince' : h.since l'.world.written = texts := by rw [hwritten', since_append]
  have hafter : (alone.settle i l written heard).written = alone.written ++ texts := by
    rw [House.settle, hsince]
  have hafter' : (h.settle i l' written heard').written = h.written ++ texts := by
    rw [House.settle, hsince']
  refine ⟨⟨hlinked.store, hm.base.trans honward.le, ?_, fun j b hji hb id hid => ?_,
    fun j b ref hji hb href id hid => ?_⟩, hafter, hafter'⟩
  · rw [settle_self, settle_self, hsince, hsince']
    exact .some (hlinked.alike rfl htrace hheard)
  · rw [settle_of_ne hji] at hb
    obtain hid | hnew := honward.scope hid
    · exact hm.scope j b hji hb id hid
    · exact Nat.not_lt.mpr hnew (hs.rooms j b hb).housed.scope_lt
  · rw [settle_of_ne hji] at hb
    have href := (hg.loops_others hs hji hb).symm.trans href
    obtain hid | hnew := honward.stack hid
    · exact hm.stack j b ref hji hb href id hid
    · exact Nat.not_lt.mpr hnew ((hs.rooms j b hb).loops ref href).2

/-- Both sessions are started anew. -/
theorem start (hm : Mirrors base i k alone h) (ho : ∀ i, (o i).Shares root writer)
    (hroot : k.scope (o i).root (o i).root) (hs : h.Sound base o) (polls : Nat) :
    ∃ (k' : Link) (texts : List Bytes),
      Mirrors base i k' (alone.turn o ⟨i, polls, none⟩) (h.turn o ⟨i, polls, none⟩) ∧
      (alone.turn o ⟨i, polls, none⟩).written = alone.written ++ texts ∧
      (h.turn o ⟨i, polls, none⟩).written = h.written ++ texts := by
  have hstore := hm.linked.addScope hroot (ho i).scalar
  let l := (o i).start ⟨alone.store, alone.written, polls⟩
  let l' := (o i).start ⟨h.store, h.written, polls⟩
  have hlinked : l.Linked (k.withScope alone.store.nextScope h.store.nextScope) l' :=
    ⟨rfl, rfl, .inr ⟨rfl, rfl⟩, rfl, Value.linked_self rfl, hstore⟩
  have hwritten : l.world.written = alone.written ++ ([] : List Bytes) := Array.appendList_nil.symm
  have hwritten' : l'.world.written = h.written ++ ([] : List Bytes) := Array.appendList_nil.symm
  exact ⟨_, [], hm.settle hs (goes_start ho h i polls) (.extend k _ _ _ _) hlinked hwritten hwritten' rfl
    #[] .nil⟩

end Mirrors

end House

end Stepwise
