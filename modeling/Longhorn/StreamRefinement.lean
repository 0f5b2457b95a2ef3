import Longhorn.Foundations.TransitionRuns
import Longhorn.StreamModel

/-!
The streams refine a queue of bounded length.
-/

namespace Longhorn.StreamRefinement

open Longhorn.Foundations.TransitionRuns
open Longhorn.StreamModel

/-- A call of a stream with what it returned. -/
inductive StreamEvent where
  | put (c : Int8) (code : Int)
  | puts (str : CString) (count : Int)
  | get (c : Int8)
  | flush

inductive StdStep : Stream → StreamEvent → Stream → Prop
  | put (s : Stream) (c : Int8) : StdStep s (.put c (putStd s c).2) (putStd s c).1
  | puts (s : Stream) (str : CString) : StdStep s (.puts str (putsStd s str).2) (putsStd s str).1
  | get (s : Stream) : StdStep s (.get (getStd s).2) (getStd s).1
  | flush (s : Stream) : StdStep s .flush (flushStd s)

inductive CharStep : Stream → StreamEvent → Stream → Prop
  | put (s : Stream) (c : Int8) : CharStep s (.put c (putC s c).2) (putC s c).1
  | get (s : Stream) : CharStep s (.get (getC s).2) (getC s).1
  | flush (s : Stream) : CharStep s .flush (flushC s)

/-- A first-in-first-out queue of at most `cap` characters. -/
inductive QueueStep (cap : Nat) (full ok : Int) :
    List Int8 → StreamEvent → List Int8 → Prop
  | put {q : List Int8} (c : Int8) (h : q.length < cap) :
      QueueStep cap full ok q (.put c ok) (q ++ [c])
  | putFull {q : List Int8} (c : Int8) (h : q.length = cap) :
      QueueStep cap full ok q (.put c full) q
  | puts (q : List Int8) (str : CString) :
      QueueStep cap full ok q (.puts str (str.text.take (cap - q.length)).length)
        (q ++ str.text.take (cap - q.length))
  | get (c : Int8) (q : List Int8) : QueueStep cap full ok (c :: q) (.get c) q
  | getEmpty : QueueStep cap full ok [] (.get (-1)) []
  | flush (q : List Int8) : QueueStep cap full ok q .flush []

section Simulation

variable {n : Nat} {full ok : Int} {s : Stream} {q : List Int8}

theorem put_refines (h : Holds n s q) (hn : n ≤ 2 ^ 31) (c : Int8) :
    ∃ q', QueueStep (n - 1) full ok q (.put c (put full ok n s c).2) q' ∧
      Holds n (put full ok n s c).1 q' := by
  have hlt := h.length_lt
  rcases Nat.lt_or_ge (q.length + 1) n with hroom | hfull
  · refine ⟨q ++ [c], ?_, h.put hn hroom⟩
    rw [h.put_code hn hroom]
    exact .put c (by omega)
  · refine ⟨q, ?_, ?_⟩
    · rw [h.put_full hn (by omega)]
      exact .putFull c (by omega)
    · rw [h.put_full hn (by omega)]
      exact h

theorem get_refines (h : Holds n s q) (hn : n ≤ 2 ^ 31) :
    ∃ q', QueueStep (n - 1) full ok q (.get (get n s).2) q' ∧ Holds n (get n s).1 q' := by
  cases q with
  | nil =>
      rw [h.get_nil]
      exact ⟨[], .getEmpty, h⟩
  | cons c rest =>
      obtain ⟨hc, hrest⟩ := h.get_cons hn
      rw [hc]
      exact ⟨rest, .get c rest, hrest⟩

/-- The loop of `puts_std` stops at the first character that does not fit. -/
theorem putsStdLoop_refines (h : Holds stdStreamSize s q) (text : List Int8) (i : Nat) :
    ∃ fits, fits = text.take (stdStreamSize - 1 - q.length) ∧
      (putsStdLoop s text i).2 = (i + fits.length : Nat) ∧
      Holds stdStreamSize (putsStdLoop s text i).1 (q ++ fits) := by
  have hn : stdStreamSize ≤ 2 ^ 31 := by decide
  induction text generalizing s q i with
  | nil =>
      refine ⟨[], List.take_nil.symm, rfl, ?_⟩
      rw [List.append_nil]
      exact h
  | cons c rest ih =>
      have hlt := h.length_lt
      rw [StreamModel.putsStdLoop]
      rcases Nat.lt_or_ge (q.length + 1) stdStreamSize with hroom | hfull
      · have hcode : (putStd s c).2 = 0 := h.put_code hn hroom
        have hput : Holds stdStreamSize (putStd s c).1 (q ++ [c]) := h.put hn hroom
        obtain ⟨fits, hfits, hcount, hholds⟩ := ih hput (i + 1)
        have hspace : stdStreamSize - 1 - q.length =
            (stdStreamSize - 1 - (q ++ [c]).length) + 1 := by
          rw [List.length_append, List.length_singleton]
          omega
        rw [if_pos hcode]
        refine ⟨c :: fits, ?_, ?_, ?_⟩
        · rw [hspace, List.take_succ_cons, hfits]
        · rw [hcount, List.length_cons]
          omega
        · rw [← List.append_cons] at hholds
          exact hholds
      · have hput : putStd s c = (s, -1) := h.put_full hn (by omega)
        rw [hput, if_neg (by simp)]
        refine ⟨[], ?_, rfl, ?_⟩
        · have hspace : stdStreamSize - 1 - q.length = 0 := by omega
          rw [hspace, List.take_zero]
        · rw [List.append_nil]
          exact h

theorem putsStd_refines (h : Holds stdStreamSize s q) (str : CString) :
    (putsStd s str).2 = (str.text.take (stdStreamSize - 1 - q.length)).length ∧
      Holds stdStreamSize (putsStd s str).1
        (q ++ str.text.take (stdStreamSize - 1 - q.length)) := by
  obtain ⟨fits, rfl, hcount, hholds⟩ := putsStdLoop_refines h (str.text.take (strlen str)) 0
  have htake : str.text.take (strlen str) = str.text := List.take_length
  rw [htake] at hcount hholds
  rw [Nat.zero_add] at hcount
  rw [StreamModel.putsStd, htake]
  exact ⟨hcount, hholds⟩

theorem stdStep_refines {s' : Stream} {e : StreamEvent} (h : Holds stdStreamSize s q)
    (hstep : StdStep s e s') :
    ∃ q', QueueStep (stdStreamSize - 1) (-1) 0 q e q' ∧ Holds stdStreamSize s' q' := by
  cases hstep with
  | put c => exact put_refines h (by decide) c
  | puts str =>
      obtain ⟨hcount, hholds⟩ := putsStd_refines h str
      rw [hcount]
      exact ⟨_, .puts q str, hholds⟩
  | get => exact get_refines h (by decide)
  | flush => exact ⟨[], .flush q, h.flush⟩

theorem charStep_refines {s' : Stream} {e : StreamEvent} (h : Holds n s q) (hn : n ≤ 2 ^ 31)
    (hstep : CharStep s e s') :
    ∃ q', QueueStep (n - 1) 0 1 q e q' ∧ Holds n s' q' := by
  have hsize := h.size
  subst hsize
  cases hstep with
  | put c => exact put_refines h hn c
  | get => exact get_refines h hn
  | flush => exact ⟨[], .flush q, h.flush⟩

/-- Every run of the code is a run of the queue with the same calls and results. -/
theorem run_refines {step : Stream → StreamEvent → Stream → Prop} {cap : Nat}
    (hstep : ∀ s e s' q, Holds n s q → step s e s' →
      ∃ q', QueueStep cap full ok q e q' ∧ Holds n s' q')
    {es : List StreamEvent} {s' : Stream} (hrun : Run step s es s') (h : Holds n s q) :
    ∃ q', Run (QueueStep cap full ok) q es q' ∧ Holds n s' q' := by
  induction hrun generalizing q with
  | nil s => exact ⟨q, .nil q, h⟩
  | cons hfirst _ ih =>
      obtain ⟨q1, hq1, h1⟩ := hstep _ _ _ _ h hfirst
      obtain ⟨q', hq', h'⟩ := ih h1
      exact ⟨q', .cons hq1 hq', h'⟩

theorem put_unchanged_iff (h : Holds n s q) (hn : n ≤ 2 ^ 31) (hcode : ok ≠ full)
    (c : Int8) : put full ok n s c = (s, full) ↔ q.length = n - 1 := by
  have hlt := h.length_lt
  constructor
  · intro hput
    rcases Nat.lt_or_ge (q.length + 1) n with hroom | hfull
    · have hok : (put full ok n s c).2 = ok := h.put_code hn hroom
      rw [hput] at hok
      exact absurd hok.symm hcode
    · omega
  · intro hfull
    exact h.put_full hn (by omega)

theorem get_unchanged_iff (h : Holds n s q) (hn : n ≤ 2 ^ 31) :
    get n s = (s, -1) ↔ q = [] := by
  constructor
  · intro hget
    cases q with
    | nil => rfl
    | cons c rest =>
        obtain ⟨_, hrest⟩ := h.get_cons hn
        rw [hget] at hrest
        exact absurd (h.unique hrest) (List.cons_ne_self c rest)
  · rintro rfl
    exact h.get_nil

end Simulation
/-- The stream holds `q`; its calls change nothing when the queue is full or empty. -/
structure Stands (n : Nat) (full : Int) (put : Stream → Int8 → Stream × Int)
    (get : Stream → Stream × Int8) (s : Stream) (q : List Int8) : Prop where
  holds : Holds n s q
  put_fails_iff : ∀ c, put s c = (s, full) ↔ q.length = n - 1
  get_fails_iff : get s = (s, -1) ↔ q = []

/-- Streams refine bounded queues: each call returns what it returns on the queue. -/
theorem streams_refine_queue {s s' t t' : Stream} {es fs : List StreamEvent}
    (hstd : Run StdStep (initStd s) es s') (hpos : 1 ≤ t.size) (hmax : t.size ≤ 2 ^ 31)
    (hin : t.inPos = 0) (hout : t.outPos = 0) (hchar : Run CharStep t fs t') :
    (∃ q, Run (QueueStep 255 (-1) 0) [] es q ∧
      Stands stdStreamSize (-1) putStd getStd s' q) ∧
    ∃ q, Run (QueueStep (t.size - 1) 0 1) [] fs q ∧ Stands t.size 0 putC getC t' q := by
  constructor
  · have hs : Holds stdStreamSize (initStd s) [] := Holds.of_zero rfl (by decide) rfl rfl
    obtain ⟨q, hq, hs'⟩ := run_refines (fun _ _ _ _ h hstep => stdStep_refines h hstep) hstd hs
    refine ⟨q, hq, hs', ?_, ?_⟩
    · exact put_unchanged_iff hs' (by decide) (by decide)
    · exact get_unchanged_iff hs' (by decide)
  · have ht : Holds t.size t [] := Holds.of_zero rfl hpos hin hout
    obtain ⟨q, hq, ht'⟩ :=
      run_refines (fun _ _ _ _ h hstep => charStep_refines h hmax hstep) hchar ht
    refine ⟨q, hq, ht', ?_, ?_⟩
    · intro c
      rw [putC, ht'.size]
      exact put_unchanged_iff ht' hmax (by decide) c
    · rw [getC, ht'.size]
      exact get_unchanged_iff ht' hmax

def blankStream : Stream := ⟨fun _ => 0, 2, 0, 0⟩

/-- The one stream is cleared before it is read to its end, the other full with one character. -/
theorem streams_refine_queue_calls :
    (∃ q, Run (QueueStep 255 (-1) 0) []
        [.put 97 0, .puts ⟨[98, 99], by decide⟩ 2, .get 97, .flush, .get (-1)] q ∧
      ∃ s, Stands stdStreamSize (-1) putStd getStd s q) ∧
    ∃ q, Run (QueueStep (2 - 1) 0 1) [] [.put 97 1, .put 98 0, .get 97, .get (-1), .flush] q ∧
      ∃ s, Stands 2 0 putC getC s q := by
  have hstd : Run StdStep (initStd blankStream)
      [.put 97 0, .puts ⟨[98, 99], by decide⟩ 2, .get 97, .flush, .get (-1)] _ :=
    .cons (.put _ 97) <| .cons (.puts _ ⟨[98, 99], by decide⟩) <| .cons (.get _) <|
      .cons (.flush _) <| .single (.get _)
  have hchar : Run CharStep blankStream [.put 97 1, .put 98 0, .get 97, .get (-1), .flush] _ :=
    .cons (.put _ 97) <| .cons (.put _ 98) <| .cons (.get _) <| .cons (.get _) <|
      .single (.flush _)
  obtain ⟨⟨q, hq, hs⟩, q', hq', ht⟩ :=
    streams_refine_queue hstd (by decide) (by decide) rfl rfl hchar
  exact ⟨⟨q, hq, _, hs⟩, q', hq', _, ht⟩

end Longhorn.StreamRefinement
