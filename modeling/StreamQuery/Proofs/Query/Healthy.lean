/-
Runs in which nothing goes wrong.

If the plan yields rows at all, so that no expression lacks a value, and nobody cancels,
then no operator ever ends before its end.  There are four ways in which one could, and
each is closed by the others: an expression without a value would be one below the
answer, which delivers rows; a consumer is gone only when it has ended, and one that
has ended well had seen the end of this producer before; a producer that is gone has
ended well and so has left its closing mark; and only a worker that has failed, or
somebody outside, cancels.

That nobody finds the other half of a channel gone follows from less: it is enough that
no operator has ended before its end so far, which is what `Network.Unfailed` says.
-/
import StreamQuery.Proofs.Query.Start

namespace StreamQuery

namespace Network

/-- No operator has ended before its end. -/
def Unfailed (n : Network) : Prop :=
  ∀ (k : Nat) (w : Worker) (o : Outcome), n.workers[k]? = some w → w.life.ended? = some o → o = .ok

/-- Nothing has gone wrong so far, and the answer is still delivered. -/
structure Healthy (n : Network) (output : Nat) : Prop where
  uncancelled : n.cancelled = false
  well : ∀ (k : Nat) (w : Worker) (o : Outcome), n.workers[k]? = some w →
    w.life.ended? = some o → o = .ok
  delivers : ∃ rows, n.Delivers output rows

namespace Unfailed

variable {n : Network} {output i k : Nat} {w : Worker} {s : Stage} {c : Channel} {o : Outcome}
  {waiting : Bool}

/-- Whoever reads from a worker at work is at work. -/
theorem reader_working (hu : n.Unfailed) (h : n.Sound output)
    (hw : n.workers[k]? = some w) (hlife : w.life = .working s waiting) {l : Nat} {v : Worker}
    (hv : n.workers[l]? = some v) (hmem : k ∈ v.inputs) :
    ∃ s' waiting', v.life = .working s' waiting' := by
  cases hended : v.life.ended? with
  | none =>
      cases hv' : v.life with
      | working s' waiting' => exact ⟨s', waiting', rfl⟩
      | leaving o sources sink => rw [hv'] at hended; cases hended
      | done o => rw [hv'] at hended; cases hended
  | some o =>
      obtain rfl := hu l v o hv hended
      have hk := h.ended_input hv hended hmem hw
      rw [hlife] at hk
      cases hk

/-- A producer that is gone has closed its output. -/
theorem closed_of_gone (hu : n.Unfailed) (h : n.Sound output) (hc : n.channels[i]? = some c)
    (hgone : c.producer = false) : c.Closed := by
  obtain ⟨v, hv⟩ := h.worker_of_channel hc
  obtain ⟨hproducer, hclosed⟩ := h.sink i v c hv hc
  rw [hgone] at hproducer
  cases hlife : v.life with
  | working s waiting => rw [hlife] at hproducer; cases hproducer
  | leaving o sources sink =>
      have hended : v.life.ended? = some o := by rw [hlife]; rfl
      obtain rfl := hu i v o hv hended
      exact hclosed.mpr hended
  | done o =>
      have hended : v.life.ended? = some o := by rw [hlife]; rfl
      obtain rfl := hu i v o hv hended
      exact hclosed.mpr hended

/-- **As long as no operator has ended before its end, none finds the other half of a channel
gone**, if the caller holds its half of the answer. -/
theorem halts_cases (hu : n.Unfailed) (h : n.Sound output)
    (hheard : ∀ c, n.channels[output]? = some c → c.consumer = true)
    (hw : n.workers[k]? = some w) (hlife : w.life = .working s waiting) (hwhy : n.Halts k w s o) :
    (∃ d, s.want = .fail d ∧ o = .crashed d) ∨ n.cancelled = true ∧ o = .failed .cancelled := by
  cases hwhy with
  | crashed hwant => exact .inl ⟨_, hwant, rfl⟩
  | cancelled hcancelled => exact .inr ⟨hcancelled, rfl⟩
  | consumerClosed hc hgone =>
      by_cases hroot : k = output
      · subst hroot
        rw [hheard _ hc] at hgone
        simp at hgone
      · have hk : k < n.workers.length := (List.getElem?_eq_some_iff.mp hw).1
        obtain ⟨l, v, hv, hmem⟩ := h.read k hk hroot
        obtain ⟨s', waiting', hlife'⟩ := hu.reader_working h hw hlife hv hmem
        obtain ⟨pos, hpos⟩ := List.mem_iff_getElem?.mp hmem
        rw [(h.source l v pos k _ hv hpos hc).consumer, hlife'] at hgone
        cases hgone
  | @producerStopped input i c hwant hi hc hslot hgone =>
      have hapt := h.apt k w hw
      rw [hlife] at hapt
      have hopen : c.finished = false := by
        rw [(h.source k w input i c hw hi hc).working s waiting hlife]
        exact (Stage.open_of_want_receive hwant hapt.1).2
      rcases hu.closed_of_gone h hc hgone with hf | hs
      · rw [hopen] at hf
        simp at hf
      · rw [hslot] at hs
        simp at hs

end Unfailed

namespace Healthy

variable {n n' : Network} {output i k : Nat} {w : Worker} {s : Stage} {c : Channel} {o : Outcome}
  {waiting : Bool} {item : Item}

theorem unfailed (hh : n.Healthy output) : n.Unfailed := hh.well

/-- The channels of all workers at work deliver.  The induction goes from the root down. -/
theorem worker_delivers (hh : n.Healthy output) (h : n.Sound output) :
    ∀ {k : Nat} {w : Worker} {s : Stage} {waiting : Bool}, n.workers[k]? = some w →
      w.life = .working s waiting → ∃ rows, n.Delivers k rows := by
  have hdown : ∀ (m k : Nat) (w : Worker) (s : Stage) (waiting : Bool),
      n.workers.length - k = m → n.workers[k]? = some w → w.life = .working s waiting →
      ∃ rows, n.Delivers k rows := by
    intro m
    induction m using Nat.strong_induction_on with
    | _ m ih =>
        intro k w s waiting hm hw hlife
        have hk : k < n.workers.length := (List.getElem?_eq_some_iff.mp hw).1
        by_cases hroot : k = output
        · rw [hroot]
          exact hh.delivers
        · obtain ⟨l, v, hv, hmem⟩ := h.read k hk hroot
          have hl : l < n.workers.length := (List.getElem?_eq_some_iff.mp hv).1
          have hlt : k < l := h.earlier l v hv k hmem
          obtain ⟨s', waiting', hlife'⟩ := hh.unfailed.reader_working h hw hlife hv hmem
          obtain ⟨rows, hd⟩ := ih (n.workers.length - l) (by omega) l v s' waiting' rfl hv hlife'
          cases hd with
          | closed hc hclosed => exact absurd hclosed ((h.sink l v _ hv hc).not_closed hlife')
          | live hv' _ _ hins _ =>
              rw [hv] at hv'
              cases hv'
              obtain ⟨pos, hpos⟩ := List.mem_iff_getElem?.mp hmem
              exact ⟨_, hins pos k hpos⟩
  intro k w s waiting hw hlife
  exact hdown _ k w s waiting rfl hw hlife

/-- **In a healthy network no operator ends before its end**, as long as the caller holds its half
of the answer. -/
theorem not_halts (hh : n.Healthy output) (h : n.Sound output)
    (hheard : ∀ c, n.channels[output]? = some c → c.consumer = true)
    (hw : n.workers[k]? = some w) (hlife : w.life = .working s waiting) : ¬ n.Halts k w s o := by
  intro hwhy
  rcases hh.unfailed.halts_cases h hheard hw hlife hwhy with ⟨d, hwant, -⟩ | ⟨hcancelled, -⟩
  · obtain ⟨rows, hd⟩ := hh.worker_delivers h hw hlife
    cases hd with
    | closed hc hclosed => exact (h.sink k w _ hw hc).not_closed hlife hclosed
    | live hw' hlife' _ _ hrest =>
        rw [hw] at hw'
        cases hw'
        rw [hlife] at hlife'
        cases hlife'
        rw [Stage.rest_of_want_fail hwant] at hrest
        simp at hrest
  · rw [hh.uncancelled] at hcancelled
    simp at hcancelled

/-- A step of a worker keeps a network healthy. -/
theorem step (hh : n.Healthy output) (h : n.Sound output)
    (hheard : ∀ c, n.channels[output]? = some c → c.consumer = true)
    (hw : n.workers[k]? = some w) (hstep : Step n k w n') : n'.Healthy output := by
  have hgoes : ∀ s waiting o, w.life = .working s waiting → ¬ n.Halts k w s o :=
    fun s waiting o hlife => hh.not_halts h hheard hw hlife
  obtain ⟨rows, hd⟩ := hh.delivers
  have hafter := hstep.delivers_after h hw hgoes hd
  -- a worker that ends now ends well, or has ended before
  have hwell : ∀ life, n'.workers = n.workers.set k { w with life } →
      (∀ o, life.ended? = some o → o = .ok) →
      ∀ (j : Nat) (v : Worker) (o : Outcome), n'.workers[j]? = some v →
        v.life.ended? = some o → o = .ok := by
    intro life hworkers hlife j v o hv hended
    have hv' : (n.setLife k w life).workers[j]? = some v := by
      rw [← hv, hworkers]
      rfl
    rw [workers_setLife hw] at hv'
    split at hv'
    · cases hv'
      exact hlife o hended
    · exact hh.well j v o hv' hended
  cases hstep with
  | wait hlife _ => exact ⟨hh.uncancelled, hwell _ rfl (by simp [Life.ended?]), _, hafter⟩
  | halt hlife hwhy => exact absurd hwhy (hgoes _ _ _ hlife)
  | receive hlife _ _ _ _ =>
      exact ⟨hh.uncancelled, hwell _ rfl (by simp [Life.ended?]), _, hafter⟩
  | send hlife _ _ _ _ => exact ⟨hh.uncancelled, hwell _ rfl (by simp [Life.ended?]), _, hafter⟩
  | close hlife _ _ _ _ =>
      exact ⟨hh.uncancelled, hwell _ rfl (by simp [Life.ended?, eq_comm]), _, hafter⟩
  | @dropSource o sources sink i c hlife _ _ =>
      obtain rfl := hh.well k w o hw (by rw [hlife]; rfl)
      exact ⟨hh.uncancelled, hwell _ rfl (by simp [Life.ended?, eq_comm]), _, hafter⟩
  | @dropSink o sources c hlife _ =>
      obtain rfl := hh.well k w o hw (by rw [hlife]; rfl)
      exact ⟨hh.uncancelled, hwell _ rfl (by simp [Life.ended?, eq_comm]), _, hafter⟩
  | @finish o hlife =>
      obtain rfl := hh.well k w o hw (by rw [hlife]; rfl)
      exact ⟨hh.uncancelled, hwell (.done .ok) rfl (by simp [Life.ended?, eq_comm]), _, hafter⟩

/-- The caller's reads keep a network healthy. -/
theorem take (hh : n.Healthy output) (h : n.Sound output) (hc : n.channels[output]? = some c)
    (hslot : c.slot = some item) :
    (n.setChannel output { c with slot := none, finished := item.isEnd }).Healthy output := by
  obtain ⟨rows, hd⟩ := hh.delivers
  exact ⟨hh.uncancelled, hh.well, _, h.after_caller_took hc hslot hd⟩

end Healthy

/-- A network whose plan yields rows starts healthy. -/
theorem healthy_ofAssembly {p : Plan} {cat : Catalog} {a : Assembly} {schemas : List Schema}
    {t : Task} {rows : List Row} (hl : Assembly.Layout p cat a.tasks schemas [a.output])
    (ht : a.tasks[a.output]? = some t) (hy : p.Yields cat t.node rows) :
    (ofAssembly a).Healthy a.output where
  uncancelled := rfl
  well := by
    intro k w o hw hended
    obtain ⟨t, -, rfl⟩ := workers_ofAssembly hw
    cases hended
  delivers := ⟨rows, delivers_of_yields hl ht hy⟩

end Network

end StreamQuery
