import Longhorn.ListRefinement

/-!
Programs over a state and a heap of lists.  Their weakest preconditions speak of
the sequences that the heap holds, so that a proof never sees a link.
-/

namespace Longhorn.ListPrograms

open Longhorn.Foundations.LinkedNodes
open Longhorn.IntrusiveList
open Longhorn.ListRefinement

/-- A state and the heap of its lists. -/
structure Machine (σ α : Type) where
  core : σ
  heap : Heap α

/-- A program has no result when it follows a bad pointer or does not end. -/
abbrev Prog (σ α : Type) := StateT (Machine σ α) Option

variable {σ ι α β γ : Type}

def readCore : Prog σ α σ := fun m => some (m.core, m)

def modifyCore (f : σ → σ) : Prog σ α Unit := fun m => some ((), { m with core := f m.core })

def fault : Prog σ α β := fun _ => none

def call [DecidableEq α] (refs : ι → ListRef α) (c : ListCall ι α β) : Prog σ α β := fun m =>
  (exec refs c m.heap).map fun r => (r.1, { m with heap := r.2 })

/-- From every heap that holds the sequences the program ends with `Q`. -/
def Wp (refs : ι → ListRef α) (p : Prog σ α β) (Q : β → σ → Seqs ι α → Prop) (c : σ)
    (q : Seqs ι α) : Prop :=
  ∀ h, Represents refs h q → ∃ b c' h' q', p ⟨c, h⟩ = some (b, ⟨c', h'⟩) ∧
    Represents refs h' q' ∧ Q b c' q'

/-- A program that goes on with another ends where both do. -/
theorem bind_some_iff {p : Prog σ α β} {f : β → Prog σ α γ} {m : Machine σ α}
    {r : γ × Machine σ α} :
    (p >>= f) m = some r ↔ ∃ b m1, p m = some (b, m1) ∧ f b m1 = some r := by
  change (p m).bind (fun x => f x.1 x.2) = some r ↔ _
  rw [Option.bind_eq_some_iff, Prod.exists]

theorem map_some_iff {p : Prog σ α β} {f : β → γ} {m : Machine σ α} {r : γ × Machine σ α} :
    (f <$> p) m = some r ↔ ∃ b m1, p m = some (b, m1) ∧ (f b, m1) = r := by
  change (p m).bind (fun x => some (f x.1, x.2)) = some r ↔ _
  rw [Option.bind_eq_some_iff, Prod.exists]
  simp only [Option.some.injEq]

variable {refs : ι → ListRef α} {Q : β → σ → Seqs ι α → Prop} {R : γ → σ → Seqs ι α → Prop}
  {c : σ} {q : Seqs ι α}

theorem Wp.mono {p : Prog σ α β} {Q' : β → σ → Seqs ι α → Prop} (h : Wp refs p Q c q)
    (hQ : ∀ b c q, Q b c q → Q' b c q) : Wp refs p Q' c q := by
  intro heap hr
  obtain ⟨b, c', h', q', heq, hr', hb⟩ := h heap hr
  exact ⟨b, c', h', q', heq, hr', hQ b c' q' hb⟩

theorem wp_pure {b : β} (h : Q b c q) : Wp refs (pure b) Q c q :=
  fun heap hr => ⟨b, c, heap, q, rfl, hr, h⟩

theorem Wp.bind {p : Prog σ α β} {f : β → Prog σ α γ}
    (h : Wp refs p (fun b c q => Wp refs (f b) R c q) c q) : Wp refs (p >>= f) R c q := by
  intro heap hr
  obtain ⟨b, c', h', q', heq, hr', hb⟩ := h heap hr
  obtain ⟨d, c'', h'', q'', heq', hr'', hd⟩ := hb h' hr'
  refine ⟨d, c'', h'', q'', ?_, hr'', hd⟩
  change (p ⟨c, heap⟩).bind (fun r => f r.1 r.2) = _
  rw [heq]
  exact heq'

theorem Wp.map {p : Prog σ α β} {f : β → γ}
    (h : Wp refs p (fun b c q => R (f b) c q) c q) : Wp refs (f <$> p) R c q := by
  intro heap hr
  obtain ⟨b, c', h', q', heq, hr', hb⟩ := h heap hr
  refine ⟨f b, c', h', q', ?_, hr', hb⟩
  change (p ⟨c, heap⟩).bind (fun r => some (f r.1, r.2)) = _
  rw [heq]
  rfl

theorem wp_readCore {Q : σ → σ → Seqs ι α → Prop} (h : Q c c q) : Wp refs readCore Q c q :=
  fun heap hr => ⟨c, c, heap, q, rfl, hr, h⟩

theorem wp_modifyCore {f : σ → σ} {Q : Unit → σ → Seqs ι α → Prop} (h : Q () (f c) q) :
    Wp refs (modifyCore f) Q c q :=
  fun heap hr => ⟨(), f c, heap, q, rfl, hr, h⟩

theorem wp_call [DecidableEq ι] [DecidableEq α] (hs : Sentinels refs) {k : ListCall ι α β}
    (hk : Allowed refs k q) (h : Q (absExec k q).1 c (absExec k q).2) :
    Wp refs (call refs k) Q c q := by
  intro heap hr
  obtain ⟨h', heq, hr', _⟩ := hr.exec hs hk
  refine ⟨_, c, h', _, ?_, hr', h⟩
  simp only [call, heq, Option.map_some]

/-- From the machine the program ends with `Q`, whatever its lists are. -/
def Yields (p : Prog σ α β) (Q : β → Machine σ α → Prop) (m : Machine σ α) : Prop :=
  ∃ b m', p m = some (b, m') ∧ Q b m'

section Yields

variable {m : Machine σ α} {S : β → Machine σ α → Prop} {T : γ → Machine σ α → Prop}

theorem Yields.mono {p : Prog σ α β} {S' : β → Machine σ α → Prop} (h : Yields p S m)
    (hS : ∀ b m, S b m → S' b m) : Yields p S' m := by
  obtain ⟨b, m', heq, hb⟩ := h
  exact ⟨b, m', heq, hS b m' hb⟩

theorem yields_pure {b : β} (h : S b m) : Yields (pure b) S m := ⟨b, m, rfl, h⟩

theorem Yields.bind {p : Prog σ α β} {f : β → Prog σ α γ}
    (h : Yields p (fun b m => Yields (f b) T m) m) : Yields (p >>= f) T m := by
  obtain ⟨b, m', heq, d, m'', heq', hd⟩ := h
  exact ⟨d, m'', bind_some_iff.mpr ⟨b, m', heq, heq'⟩, hd⟩

theorem yields_readCore {S : σ → Machine σ α → Prop} (h : S m.core m) : Yields readCore S m :=
  ⟨m.core, m, rfl, h⟩

theorem yields_modifyCore {f : σ → σ} {S : Unit → Machine σ α → Prop}
    (h : S () ⟨f m.core, m.heap⟩) : Yields (modifyCore f) S m :=
  ⟨(), _, rfl, h⟩

theorem yields_call [DecidableEq α] {k : ListCall ι α β} {b : β} {h' : Heap α}
    (hexec : exec refs k m.heap = some (b, h')) (h : S b ⟨m.core, h'⟩) :
    Yields (call refs k) S m :=
  ⟨b, ⟨m.core, h'⟩, by rw [call, hexec, Option.map_some], h⟩

end Yields

/-- From every heap that holds the sequences the program ends with `Q`, whatever becomes
of the lists. -/
def Leads (refs : ι → ListRef α) (p : Prog σ α β) (Q : β → σ → Heap α → Prop) (c : σ)
    (q : Seqs ι α) : Prop :=
  ∀ h, Represents refs h q → ∃ b c' h', p ⟨c, h⟩ = some (b, ⟨c', h'⟩) ∧ Q b c' h'

theorem Leads.mono {p : Prog σ α β} {R R' : β → σ → Heap α → Prop} (h : Leads refs p R c q)
    (hR : ∀ b c heap, R b c heap → R' b c heap) : Leads refs p R' c q := by
  intro heap hr
  obtain ⟨b, c', h', heq, hb⟩ := h heap hr
  exact ⟨b, c', h', heq, hR b c' h' hb⟩

theorem Leads.bind {p : Prog σ α β} {f : β → Prog σ α γ} {R : γ → σ → Heap α → Prop}
    (h : Wp refs p (fun b c q => Leads refs (f b) R c q) c q) : Leads refs (p >>= f) R c q := by
  intro heap hr
  obtain ⟨b, c', h', q', heq, hr', hb⟩ := h heap hr
  obtain ⟨d, c'', h'', heq', hd⟩ := hb h' hr'
  refine ⟨d, c'', h'', ?_, hd⟩
  change (p ⟨c, heap⟩).bind (fun r => f r.1 r.2) = _
  rw [heq]
  exact heq'

/-- The program goes on with lists that may be broken. -/
theorem Leads.andThen {p : Prog σ α β} {f : β → Prog σ α γ} {R : γ → σ → Heap α → Prop}
    (h : Leads refs p (fun b c heap => ∃ d c' h', f b ⟨c, heap⟩ = some (d, ⟨c', h'⟩) ∧ R d c' h')
      c q) : Leads refs (p >>= f) R c q := by
  intro heap hr
  obtain ⟨b, c', h', heq, d, c'', h'', heq', hd⟩ := h heap hr
  refine ⟨d, c'', h'', ?_, hd⟩
  change (p ⟨c, heap⟩).bind (fun r => f r.1 r.2) = _
  rw [heq]
  exact heq'

/-- Whenever the program ends, it has taken a state with `P` to one with `Q`. -/
def Ensures (p : Prog σ α β) (P : σ → Prop) (Q : β → σ → Prop) : Prop :=
  ∀ m b m', P m.core → p m = some (b, m') → Q b m'.core

theorem Ensures.of_and {φ : Prop} {p : Prog σ α β} {P : σ → Prop} {Q : β → σ → Prop}
    (h : φ → Ensures p P Q) : Ensures p (fun c => P c ∧ φ) Q :=
  fun m b m' hm => h hm.2 m b m' hm.1

/-- The program keeps `P`, whenever it ends. -/
def Keeps (P : σ → Prop) (p : Prog σ α β) : Prop := Ensures p P fun _ => P

section Partial

variable {P P' : σ → Prop} {Q Q' : β → σ → Prop} {R : γ → σ → Prop}

theorem Ensures.mono {p : Prog σ α β} (h : Ensures p P Q) (hP : ∀ c, P' c → P c)
    (hQ : ∀ b c, Q b c → Q' b c) : Ensures p P' Q' :=
  fun m b m' hm heq => hQ b m'.core (h m b m' (hP _ hm) heq)

theorem ensures_trivial (p : Prog σ α β) : Ensures p P fun _ _ => True :=
  fun _ _ _ _ _ => trivial

theorem ensures_pure {b : β} (h : ∀ c, P c → Q b c) : Ensures (pure b : Prog σ α β) P Q := by
  rintro m b m' hm ⟨⟩
  exact h m.core hm

theorem Ensures.bind {p : Prog σ α β} {f : β → Prog σ α γ} (h : Ensures p P Q)
    (hf : ∀ b, Ensures (f b) (Q b) R) : Ensures (p >>= f) P R := by
  intro m d m'' hm heq
  obtain ⟨b, m1, hp, hr⟩ := bind_some_iff.mp heq
  exact hf b m1 d m'' (h m b m1 hm hp) hr

theorem ensures_readCore {Q : σ → σ → Prop} (h : ∀ c, P c → Q c c) :
    Ensures (readCore : Prog σ α σ) P Q := by
  rintro m b m' hm ⟨⟩
  exact h m.core hm

theorem ensures_modifyCore {f : σ → σ} {Q : Unit → σ → Prop} (h : ∀ c, P c → Q () (f c)) :
    Ensures (modifyCore f : Prog σ α Unit) P Q := by
  rintro m b m' hm ⟨⟩
  exact h m.core hm

theorem ensures_fault : Ensures (fault : Prog σ α β) P Q := by
  rintro m b m' _ ⟨⟩

/-- A call of a list leaves the state alone. -/
theorem ensures_call [DecidableEq α] {k : ListCall ι α β} (h : ∀ b c, P c → Q b c) :
    Ensures (call refs k) P Q := by
  intro m b m' hm heq
  obtain ⟨r, _, hr⟩ := Option.map_eq_some_iff.mp heq
  cases hr
  exact h _ m.core hm

theorem Keeps.bind {p : Prog σ α β} {f : β → Prog σ α γ} (h : Keeps P p)
    (hf : ∀ b, Keeps P (f b)) : Keeps P (p >>= f) :=
  Ensures.bind h hf

theorem Keeps.andThen {p : Prog σ α β} {f : β → Prog σ α γ} (h : Keeps P p)
    (hf : ∀ b, Ensures (f b) P R) : Ensures (p >>= f) P R :=
  Ensures.bind h hf

theorem keeps_pure (b : β) : Keeps P (pure b : Prog σ α β) := ensures_pure fun _ h => h

theorem keeps_fault : Keeps P (fault : Prog σ α β) := ensures_fault

theorem keeps_modifyCore {f : σ → σ} (h : ∀ c, P c → P (f c)) :
    Keeps P (modifyCore f : Prog σ α Unit) :=
  ensures_modifyCore h

theorem keeps_ite {φ : Prop} [Decidable φ] {p p' : Prog σ α β} (h : Keeps P p) (h' : Keeps P p') :
    Keeps P (if φ then p else p') := by
  split
  · exact h
  · exact h'

end Partial

/-- Whenever the program ends, from a heap that holds the sequences, it ends with `Q`. -/
def Gives (refs : ι → ListRef α) (p : Prog σ α β) (Q : β → σ → Prop) (c : σ)
    (q : Seqs ι α) : Prop :=
  ∀ h, Represents refs h q → ∀ b m, p ⟨c, h⟩ = some (b, m) → Q b m.core

section Mixed

variable {P : σ → Prop} {K : β → σ → Prop} {L : γ → σ → Prop}

theorem Ensures.gives {p : Prog σ α β} (h : Ensures p P K) (hc : P c) : Gives refs p K c q :=
  fun heap _ b m heq => h ⟨c, heap⟩ b m hc heq

theorem Gives.bind {p : Prog σ α β} {f : β → Prog σ α γ}
    (h : Wp refs p (fun b c q => Gives refs (f b) L c q) c q) : Gives refs (p >>= f) L c q := by
  intro heap hr d m heq
  obtain ⟨b, c', h', q', hp, hr', hb⟩ := h heap hr
  refine hb h' hr' d m ?_
  change (p ⟨c, heap⟩).bind (fun r => f r.1 r.2) = _ at heq
  rwa [hp] at heq

theorem Gives.mono {p : Prog σ α β} {K' : β → σ → Prop} (h : Gives refs p K c q)
    (hK : ∀ b c, K b c → K' b c) : Gives refs p K' c q :=
  fun heap hr b m heq => hK b m.core (h heap hr b m heq)

theorem Gives.andThen {p : Prog σ α β} {f : β → Prog σ α γ} (h : Gives refs p K c q)
    (hf : ∀ b, Ensures (f b) (K b) L) : Gives refs (p >>= f) L c q := by
  intro heap hr d m heq
  obtain ⟨b, m1, hp, hd⟩ := bind_some_iff.mp heq
  exact hf b m1 d m (h heap hr b m1 hp) hd

theorem Wp.and_gives {p : Prog σ α β} (h : Wp refs p Q c q) (hg : Gives refs p K c q) :
    Wp refs p (fun b c q => Q b c q ∧ K b c) c q := by
  intro heap hr
  obtain ⟨b, c', h', q', heq, hr', hb⟩ := h heap hr
  exact ⟨b, c', h', q', heq, hr', hb, hg heap hr b ⟨c', h'⟩ heq⟩

end Mixed

/-- What the sequences of any heap satisfy: no repetitions, and no node on two
lists. -/
structure Apart (q : Seqs ι α) : Prop where
  nodup : ∀ i, (q.get i).Nodup
  disjoint : ∀ i j, i ≠ j → List.Disjoint (q.get i) (q.get j)

theorem apart_of_represents {h : Heap α} (hr : Represents refs h q) : Apart q := by
  refine ⟨fun i => ?_, hr.disjoint⟩
  rcases hi : q i with _ | xs
  · rw [Seqs.get, hi, Option.getD_none]
    exact List.nodup_nil
  · rw [Seqs.get_of_eq hi]
    exact (isList_nodup_iff.mp (hr.lists i xs hi).nodup).1

theorem wp_of_apart {p : Prog σ α β} (h : Apart q → Wp refs p Q c q) : Wp refs p Q c q :=
  fun heap hr => h (apart_of_represents hr) heap hr

/-- A node that has been taken off its list is on no list. -/
theorem Apart.erased [DecidableEq ι] [DecidableEq α] {i : ι} {n : α} (hq : Apart q)
    (hin : n ∈ q.get i) (j : ι) : n ∉ (q.set i ((q.get i).erase n)).get j := by
  rcases eq_or_ne j i with rfl | hj
  · rw [Seqs.get_set_same]
    exact (hq.nodup j).not_mem_erase
  · rw [Seqs.get_set_of_ne hj]
    exact fun hn => hq.disjoint j i hj hn hin

theorem gives_of_apart {K : β → σ → Prop} {p : Prog σ α β}
    (h : Apart q → Gives refs p K c q) : Gives refs p K c q :=
  fun heap hr => h (apart_of_represents hr) heap hr

end Longhorn.ListPrograms
