import MessageDepot.Proofs.CanonicalText
import MessageDepot.Proofs.RelationalRefinement

/-!
# What is in the tables, and that it can be read

Whatever stores do, the tables of a new database stay sound: keys are not repeated, identifiers
and group keys have their canonical text, and every stored form can be read, under any codec, as
the message of its row. So nothing but an addition is ever refused, not even a group that comes
from a stream opened long before.

Results:
* `Represents.sound`: tables that stand for ledgers are sound.
* `Ledger.serves`: a ledger refuses nothing but additions.
* `run_sound`: both for every state that a session reaches.
-/
namespace MessageDepot

/-! ## Success -/

/-- Every group that an answer yields could be loaded. -/
def Answer.IsWhole {ε : Type} : Answer ε → Prop
  | .groups gs => ∀ g ∈ gs, ∃ h, g = .ok h
  | _ => True

/-- The step was answered, and the answer is whole. -/
inductive Response.Succeeds {ε : Type} : Response ε → Prop where
  | answered {a : Answer ε} : a.IsWhole → Succeeds (.answered a)

def Request.isAddition : Request → Bool
  | .addMessage _ | .addToGroup _ _ => true
  | _ => false

def Event.isAddition : Event → Bool
  | .request _ q => q.isAddition
  | _ => false

/-- The store or the stream of an event is there. -/
def Event.IsKnown {σ ε : Type} (B : Nat → Option (Backend σ ε)) (s : Session σ) : Event → Prop
  | .clock _ => True
  | .request i _ | .openStream i _ => (B i).isSome
  | .poll name => ∃ c ∈ s.streams.lookup name, (B c.store).isSome

/-- Nothing but an addition fails. -/
structure Backend.Serves {σ ε : Type} (B : Backend σ ε) : Prop where
  perform : ∀ now q s, q.isAddition = false → ∃ a, (B.perform now q s).1 = .ok a ∧ a.IsWhole
  groupKeys : ∀ s, ∃ keys, B.groupKeys s = .ok keys
  loadKey : ∀ key s, ∃ g, B.loadKey key s = .ok g

section
variable {σ τ ε φ : Type}

theorem Answer.Alike.isWhole {a : Answer ε} {b : Answer φ} (h : a.Alike b) (hb : b.IsWhole) :
    a.IsWhole := by
  cases h with
  | @groups gs hs h =>
    intro g hg
    obtain ⟨i, hi, rfl⟩ := List.getElem_of_mem hg
    have hl : i < hs.length := by rw [← h.length_eq]; exact hi
    obtain ⟨k, hk⟩ := hb hs[i] (List.getElem_mem hl)
    have hik := (List.forall₂_iff_get.1 h).2 i hi hl
    simp only [List.get_eq_getElem, hk] at hik
    obtain ⟨g', hg', -⟩ := hik.exists_ok
    exact ⟨g', hg'⟩
  | _ => trivial

theorem Response.Alike.succeeds {x : Response ε} {y : Response φ} (h : x.Alike y)
    (hy : y.Succeeds) : x.Succeeds := by
  cases h with
  | answered h => cases hy with | answered hb => exact .answered (h.isWhole hb)
  | failed => cases hy
  | unknown => cases hy

theorem Event.IsKnown.congr {B : Nat → Option (Backend σ ε)} {C : Nat → Option (Backend τ φ)}
    {s : Session σ} {t : Session τ} (hs : ∀ i, (B i).isSome = (C i).isSome)
    (ht : s.streams = t.streams) {e : Event} (h : e.IsKnown B s) : e.IsKnown C t := by
  cases e with
  | clock now => trivial
  | request i q => exact (hs i).symm.trans h
  | openStream i name => exact (hs i).symm.trans h
  | poll name =>
    obtain ⟨c, hc, hk⟩ := h
    exact ⟨c, ht ▸ hc, (hs c.store).symm.trans hk⟩

theorem Session.step_succeeds {B : Nat → Option (Backend σ ε)} (hB : ∀ i, ∀ b ∈ B i, b.Serves)
    {s : Session σ} {e : Event} (ha : e.isAddition = false) (hk : e.IsKnown B s) :
    (s.step B e).1.Succeeds := by
  cases e with
  | clock now => exact .answered trivial
  | request i q =>
    obtain ⟨b, hb⟩ := Option.isSome_iff_exists.1 hk
    obtain ⟨a, hp, hw⟩ := (hB i b hb).perform s.clock q s.state ha
    simp only [step, hb]
    rw [hp]
    exact .answered hw
  | openStream i name =>
    obtain ⟨b, hb⟩ := Option.isSome_iff_exists.1 hk
    obtain ⟨keys, hg⟩ := (hB i b hb).groupKeys s.state
    simp only [step, hb, hg]
    exact .answered trivial
  | poll name =>
    obtain ⟨c, hc, hk⟩ := hk
    obtain ⟨b, hb⟩ := Option.isSome_iff_exists.1 hk
    simp only [step, Option.mem_def.1 hc, hb]
    cases hkeys : c.keys with
    | nil => exact .answered trivial
    | cons key keys =>
      obtain ⟨g, hg⟩ := (hB _ b hb).loadKey key s.state
      simp only [hg]
      exact .answered trivial

theorem Backend.Serves.within {B : Backend σ ε} (h : B.Serves) {ι : Type} [DecidableEq ι] (i : ι) :
    (B.within i).Serves where
  perform now q w ha := by
    rw [perform_within]
    exact h.perform now q (w i) ha
  groupKeys w := h.groupKeys (w i)
  loadKey key w := h.loadKey key (w i)

end

/-- A ledger refuses nothing but additions. -/
theorem Ledger.serves (region : String) (codec : Codec) : (Ledger.backend region codec).Serves where
  perform now q L ha := by
    cases q with
    | addMessage | addToGroup => cases ha
    | iterate =>
      refine ⟨_, rfl, ?_⟩
      intro g hg
      obtain ⟨key, -, rfl⟩ := List.mem_map.1 hg
      exact ⟨_, rfl⟩
    | expire timeout =>
      obtain ⟨gs, hgs, -⟩ := Ledger.expire_eq region codec now timeout L
      refine ⟨.expired gs, ?_, trivial⟩
      simp only [Backend.perform, hgs]
      rfl
    | _ => exact ⟨_, rfl, trivial⟩
  groupKeys _ := ⟨_, rfl⟩
  loadKey _ _ := ⟨_, rfl⟩

namespace Sql

/-! ## Sound tables -/

/-- Stored messages are keyed, readable under every codec, and stamped with their column. -/
structure MessageTable.Sound (t : MessageTable) : Prop where
  keys : t.rows.Pairwise fun a b => ¬(a.messageId = b.messageId ∧ a.region = b.region)
  ids : ∀ r ∈ t.rows, IsCanonical r.messageId
  readable : ∀ r ∈ t.rows, ∃ b m, r.bytes = some b ∧ (∀ c : Codec, c.decode b = .ok m) ∧
    m.id.text = r.messageId ∧ m.isSaved = true ∧ ∃ clock, r.createdDate = some clock ∧
      m.createdDate? = some clock

/-- Members are keyed, readable under every codec, and marked or not. -/
structure MemberTable.Sound (t : MemberTable) : Prop where
  keys : t.rows.Pairwise fun a b =>
    ¬(a.groupKey = b.groupKey ∧ a.messageId = b.messageId ∧ a.region = b.region)
  ids : ∀ r ∈ t.rows, IsCanonical r.groupKey ∧ IsCanonical r.messageId
  readable : ∀ r ∈ t.rows, ∃ b m, r.bytes = some b ∧ (∀ c : Codec, c.decode b = .ok m) ∧
    m.id.text = r.messageId
  flags : ∀ r ∈ t.rows, r.marked = some 0 ∨ r.marked = some 1

/-- Both tables of a prefix are there and sound. -/
structure Database.Sound (db : Database) (tablePrefix : String) : Prop where
  messages : ∃ t, db.messages? tablePrefix = some t ∧ t.Sound
  members : ∃ t, db.members? tablePrefix = some t ∧ t.Sound

theorem MessageTable.sound_ofKept (L : Ledger) (keyed : Bool) :
    Sound ⟨keyed, L.kept.map .ofKept⟩ where
  keys := by
    refine List.pairwise_map.2 (L.keptApart.imp fun {a b} h => ?_)
    rintro ⟨hid, hr⟩
    exact h ⟨hr, Uuid.text_injective hid⟩
  ids := by
    intro r hr
    obtain ⟨k, -, rfl⟩ := List.mem_map.1 hr
    exact isCanonical_text _
  readable := by
    intro r hr
    obtain ⟨k, -, rfl⟩ := List.mem_map.1 hr
    exact ⟨_, k.message, rfl, fun c => c.decode_frame k.fits, rfl, k.saved, k.clock, rfl, k.dated⟩

theorem MemberTable.Lists.sound {t : MemberTable} {L : Ledger} (h : t.Lists L.members) :
    t.Sound where
  keys := by
    rw [h.rows]
    refine List.pairwise_map.2 (L.membersApart.imp fun {a b} h => ?_)
    rintro ⟨hg, hid, hr⟩
    exact h ⟨hr, Uuid.text_injective hg, Uuid.text_injective hid⟩
  ids := by
    rw [h.rows]
    intro r hr
    obtain ⟨m, -, rfl⟩ := List.mem_map.1 hr
    exact ⟨isCanonical_text _, isCanonical_text _⟩
  readable := by
    rw [h.rows]
    intro r hr
    obtain ⟨m, -, rfl⟩ := List.mem_map.1 hr
    exact ⟨_, m.message, rfl, fun c => c.decode_frame m.fits, rfl⟩
  flags := by
    rw [h.rows]
    intro r hr
    obtain ⟨m, -, rfl⟩ := List.mem_map.1 hr
    cases hm : m.isMarked with
    | false => left; simp [MemberRow.ofMember, hm]
    | true => right; simp [MemberRow.ofMember, hm]

theorem Represents.sound {prefixes : List String} {db : Database} {W : Ledgers}
    (r : Represents prefixes db W) {p : String} (hp : p ∈ prefixes) : db.Sound p where
  messages := ⟨_, (r p hp).messages, MessageTable.sound_ofKept _ _⟩
  members := by
    obtain ⟨t, ht, hl⟩ := (r p hp).members
    exact ⟨t, ht, hl.sound⟩

theorem ledgers_serve {stores : Nat → Option Store} (i : Nat) :
    ∀ b ∈ ledgers stores i, b.Serves := by
  intro b hb
  obtain ⟨s, -, rfl⟩ := Option.map_eq_some_iff.1 hb
  exact (Ledger.serves s.region s.codec).within _

/-- In every state that a session on a new database reaches, all tables are sound, and every
event but an addition succeeds, the groups that it yields included. -/
theorem run_sound {prefixes : List String} {db : Database}
    (h : Database.initialise prefixes = .ok db) {stores : Nat → Option Store}
    (hp : ∀ i, ∀ s ∈ stores i, s.tablePrefix ∈ prefixes) (clock : Int64) (es : List Event) :
    let s := ((Session.start db clock).run (backends stores) es).2
    (∀ p ∈ prefixes, s.state.Sound p) ∧
      ∀ e, e.isAddition = false → e.IsKnown (backends stores) s →
        (s.step (backends stores) e).1.Succeeds := by
  obtain ⟨-, r⟩ := run_alike_ledgers hp h clock es
  refine ⟨fun p => r.state.sound, ?_⟩
  intro e ha hk
  have hl : e.IsKnown (ledgers stores) _ :=
    hk.congr (fun i => by simp [backends, ledgers]) r.streams
  have hs := (Session.step_alike (backends_refine_ledgers hp) e r).1
  exact hs.succeeds (Session.step_succeeds ledgers_serve ha hl)

/-- Stores of two prefixes, one of them under a limit, which the other's message exceeds. -/
theorem run_sound_two_prefixes :
    let prefixes : List String := ["INT_", "app_"]
    let db : Database := ⟨[(messageTable "INT_", .messages ⟨true, []⟩),
      (memberTable "INT_", .members ⟨true, true, []⟩), (messageTable "app_", .messages ⟨true, []⟩),
      (memberTable "app_", .members ⟨true, true, []⟩)]⟩
    let stores : Nat → Option Store := fun i => [⟨"DEFAULT", "INT_", .standard⟩,
      ⟨"other", "INT_", .withMaxSize 60⟩, ⟨"other", "app_", .standard⟩][i]?
    let m : Message := .create plainSpace 0 (List.replicate 100 0)
    let es : List Event := [.request 0 (.addMessage m), .request 1 (.addMessage m), .clock (-1),
      .request 1 (.addToGroup (.text "g") (.create m.id 0 [])), .openStream 1 "s",
      .request 2 (.addToGroup (.text "g") m)]
    Database.initialise prefixes = .ok db ∧ (∀ i, ∀ s ∈ stores i, s.tablePrefix ∈ prefixes) ∧
      let s := ((Session.start db 5).run (backends stores) es).2
      (∀ p ∈ prefixes, s.state.Sound p) ∧
        ∀ e, e.isAddition = false → e.IsKnown (backends stores) s →
          (s.step (backends stores) e).1.Succeeds := by
  intro prefixes db stores m es
  have hp : ∀ i, ∀ s ∈ stores i, s.tablePrefix ∈ prefixes := by
    intro i s hs
    have hm := List.mem_of_getElem? hs
    simp only [List.mem_cons, List.not_mem_nil, or_false] at hm
    rcases hm with rfl | rfl | rfl <;> simp [prefixes]
  exact ⟨rfl, hp, run_sound rfl hp 5 es⟩

end Sql

end MessageDepot
