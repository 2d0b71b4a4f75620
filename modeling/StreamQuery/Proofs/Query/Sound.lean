/-
How the workers of a query and their channels stand to each other.

`Wired` is what never changes: worker `k` writes channel `k`, reads only channels with
smaller numbers, and every channel but that of the answer is read by one worker at one
place.  So the workers form a tree whose root writes the answer.

`Sound` is what every step preserves.  It says of each channel how it stands to the
worker that writes it and to the worker that reads it: a half is held as long as its
worker holds it, a channel is closed exactly when its writer has ended well, and the
reader has taken the closing mark exactly from the inputs that its stage takes for
exhausted.  From this it follows that a closed answer means that every worker has
ended well: a worker ends well only when it has seen the closing marks of all its
inputs.
-/
import Mathlib.Data.List.Nodup
import StreamQuery.Proofs.Channel.Slot
import StreamQuery.Proofs.Operator.Stream
import StreamQuery.Proofs.Query.Layout
import StreamQuery.Query.Network

namespace StreamQuery

/-! ### A worker and its halves -/

namespace Life

/-- How the operator of a worker has ended, if it has. -/
def ended? : Life → Option Outcome
  | .working _ _ => none
  | .leaving o _ _ => some o
  | .done o => some o

/-- Whether a worker holds its producer half. -/
def holdsSink : Life → Bool
  | .working _ _ => true
  | .leaving _ _ sink => sink
  | .done _ => false

/-- Whether a worker that reads a channel holds its consumer half. -/
def holdsSource (i : Nat) : Life → Bool
  | .working _ _ => true
  | .leaving _ sources _ => decide (i ∈ sources)
  | .done _ => false

/-- What a worker with these inputs can be at.  It waits only if there is something to wait for. -/
def Apt (inputs : List Nat) : Life → Prop
  | .working s waiting => s.Fits inputs.length ∧ (waiting = true → ∀ d, s.want ≠ .fail d)
  | .leaving _ sources _ => sources.Nodup ∧ sources ⊆ inputs
  | .done _ => True

/-- How a worker stands to the channel that it writes. -/
structure Writes (life : Life) (c : Channel) : Prop where
  producer : c.producer = life.holdsSink
  closed : c.Closed ↔ life.ended? = some .ok

/-- How a worker stands to the channel that it reads as its input at a position. -/
structure Reads (life : Life) (pos i : Nat) (c : Channel) : Prop where
  consumer : c.consumer = life.holdsSource i
  /-- A worker at work has taken the closing mark exactly if its stage says so. -/
  working : ∀ s waiting, life = .working s waiting → c.finished = s.exhausted pos
  /-- A worker that has ended well has taken it. -/
  ended : life.ended? = some .ok → c.finished = true

theorem Writes.not_closed {life : Life} {c : Channel} {s : Stage} {waiting : Bool}
    (h : life.Writes c) (hlife : life = .working s waiting) : ¬ c.Closed := by
  rw [h.closed, hlife]
  intro hended
  cases hended

end Life

namespace Network

/-! ### The tree of the workers -/

/-- The workers form a tree. -/
structure Wired (n : Network) (output : Nat) : Prop where
  size : n.channels.length = n.workers.length
  root : output < n.workers.length
  writes : ∀ (k : Nat) (w : Worker), n.workers[k]? = some w → w.output = k
  earlier : ∀ (k : Nat) (w : Worker), n.workers[k]? = some w → ∀ i ∈ w.inputs, i < k
  /-- A channel is read at one place only. -/
  reader : ∀ (k : Nat) (w : Worker) (pos l : Nat) (v : Worker) (pos' i : Nat),
    n.workers[k]? = some w → w.inputs[pos]? = some i → n.workers[l]? = some v →
      v.inputs[pos']? = some i → k = l ∧ pos = pos'
  /-- The answer is read by no worker. -/
  unread : ∀ (k : Nat) (w : Worker), n.workers[k]? = some w → output ∉ w.inputs
  /-- Every other channel is read. -/
  read : ∀ i < n.workers.length, i ≠ output →
    ∃ (k : Nat) (w : Worker), n.workers[k]? = some w ∧ i ∈ w.inputs

namespace Wired

variable {n n' : Network} {output k i : Nat} {w : Worker} {c : Channel}

theorem channel_of_worker (h : n.Wired output) (hw : n.workers[k]? = some w) :
    ∃ c, n.channels[k]? = some c := by
  have hk : k < n.channels.length := by
    rw [h.size]
    exact (List.getElem?_eq_some_iff.mp hw).1
  exact ⟨_, List.getElem?_eq_getElem hk⟩

theorem worker_of_channel (h : n.Wired output) (hc : n.channels[i]? = some c) :
    ∃ w, n.workers[i]? = some w := by
  have hi : i < n.workers.length := by
    rw [← h.size]
    exact (List.getElem?_eq_some_iff.mp hc).1
  exact ⟨_, List.getElem?_eq_getElem hi⟩

/-- The channel of an input is one of a worker further down. -/
theorem channel_of_input (h : n.Wired output) (hw : n.workers[k]? = some w) (hi : i ∈ w.inputs) :
    ∃ c, n.channels[i]? = some c := by
  have hlt : i < n.channels.length := by
    rw [h.size]
    exact Nat.lt_trans (h.earlier k w hw i hi) (List.getElem?_eq_some_iff.mp hw).1
  exact ⟨_, List.getElem?_eq_getElem hlt⟩

theorem channel_of_root (h : n.Wired output) : ∃ c, n.channels[output]? = some c := by
  have hlt : output < n.channels.length := by
    rw [h.size]
    exact h.root
  exact ⟨_, List.getElem?_eq_getElem hlt⟩

/-- A worker reads no channel twice. -/
theorem inputs_nodup (h : n.Wired output) (hw : n.workers[k]? = some w) : w.inputs.Nodup := by
  refine List.nodup_iff_getElem?_ne_getElem?.mpr fun i j hij hj heq => ?_
  have hi : i < w.inputs.length := Nat.lt_trans hij hj
  have hsame := (h.reader k w i k w j w.inputs[i] hw (List.getElem?_eq_getElem hi) hw
    (heq ▸ List.getElem?_eq_getElem hi)).2
  omega

/-- The tree depends only on which channels the workers read and write. -/
theorem congr (h : n.Wired output) (hsize : n'.channels.length = n.channels.length)
    (hlen : n'.workers.length = n.workers.length)
    (hwires : ∀ (k : Nat) (v : Worker), n'.workers[k]? = some v →
      ∃ w : Worker, n.workers[k]? = some w ∧ w.inputs = v.inputs ∧ w.output = v.output) :
    n'.Wired output where
  size := by rw [hsize, hlen]; exact h.size
  root := by rw [hlen]; exact h.root
  writes := by
    intro k v hv
    obtain ⟨w, hw, -, hout⟩ := hwires k v hv
    rw [← hout]
    exact h.writes k w hw
  earlier := by
    intro k v hv
    obtain ⟨w, hw, hin, -⟩ := hwires k v hv
    rw [← hin]
    exact h.earlier k w hw
  reader := by
    intro k v pos l u pos' i hv hi hu hi'
    obtain ⟨w, hw, hin, -⟩ := hwires k v hv
    obtain ⟨x, hx, hin', -⟩ := hwires l u hu
    rw [← hin] at hi
    rw [← hin'] at hi'
    exact h.reader k w pos l x pos' i hw hi hx hi'
  unread := by
    intro k v hv
    obtain ⟨w, hw, hin, -⟩ := hwires k v hv
    rw [← hin]
    exact h.unread k w hw
  read := by
    intro i hi hne
    rw [hlen] at hi
    obtain ⟨k, w, hw, hmem⟩ := h.read i hi hne
    have hk : k < n'.workers.length := by
      rw [hlen]
      exact (List.getElem?_eq_some_iff.mp hw).1
    obtain ⟨w', hw', hin, -⟩ := hwires k _ (List.getElem?_eq_getElem hk)
    rw [hw] at hw'
    cases hw'
    exact ⟨k, _, List.getElem?_eq_getElem hk, hin ▸ hmem⟩

end Wired

/-! ### What every step preserves -/

/-- How the workers and the channels stand to each other, at any time. -/
structure Sound (n : Network) (output : Nat) : Prop extends Wired n output where
  apt : ∀ (k : Nat) (w : Worker), n.workers[k]? = some w → w.life.Apt w.inputs
  sink : ∀ (k : Nat) (w : Worker) (c : Channel), n.workers[k]? = some w →
    n.channels[k]? = some c → w.life.Writes c
  source : ∀ (k : Nat) (w : Worker) (pos i : Nat) (c : Channel),
    n.workers[k]? = some w → w.inputs[pos]? = some i → n.channels[i]? = some c →
      w.life.Reads pos i c
  /-- Nothing comes behind the closing mark. -/
  spent : ∀ (i : Nat) (c : Channel), n.channels[i]? = some c → c.finished = true → c.slot = none

namespace Sound

variable {n : Network} {output : Nat}

/-- A worker that has ended well has seen the ends of all its inputs, so that the workers that
write them have ended well. -/
theorem ended_input {k i : Nat} {w v : Worker} (h : n.Sound output) (hw : n.workers[k]? = some w)
    (hok : w.life.ended? = some .ok) (hi : i ∈ w.inputs) (hv : n.workers[i]? = some v) :
    v.life.ended? = some .ok := by
  obtain ⟨pos, hpos⟩ := List.mem_iff_getElem?.mp hi
  obtain ⟨c, hc⟩ := h.channel_of_input hw hi
  have hfinished : c.finished = true := (h.source k w pos i c hw hpos hc).ended hok
  exact (h.sink i v c hv hc).closed.mp (.inl hfinished)

/-- **A closed answer means that every worker has ended well.** The induction goes from the root
down: every other worker is read by one with a larger number. -/
theorem all_ended {c : Channel} (h : n.Sound output) (hc : n.channels[output]? = some c)
    (hclosed : c.Closed) :
    ∀ (k : Nat) (w : Worker), n.workers[k]? = some w → w.life.ended? = some .ok := by
  have hdown : ∀ (m k : Nat) (w : Worker), n.workers.length - k = m →
      n.workers[k]? = some w → w.life.ended? = some .ok := by
    intro m
    induction m using Nat.strong_induction_on with
    | _ m ih =>
        intro k w hm hw
        have hk : k < n.workers.length := (List.getElem?_eq_some_iff.mp hw).1
        by_cases hroot : k = output
        · subst hroot
          exact (h.sink _ w c hw hc).closed.mp hclosed
        · obtain ⟨l, v, hv, hmem⟩ := h.read k hk hroot
          have hl : l < n.workers.length := (List.getElem?_eq_some_iff.mp hv).1
          have hlt : k < l := h.earlier l v hv k hmem
          exact h.ended_input hv (ih (n.workers.length - l) (by omega) l v rfl hv) hmem hw
  intro k w hw
  exact hdown _ k w rfl hw

end Sound

/-! ### Before the first step -/

section Start

variable {p : Plan} {c : Catalog} {a : Assembly} {schemas : List Schema}

theorem workers_ofAssembly {k : Nat} {w : Worker} (hw : (ofAssembly a).workers[k]? = some w) :
    ∃ t, a.tasks[k]? = some t ∧ w = ⟨t.inputs, t.output, .working t.operator.stage false⟩ := by
  simp only [ofAssembly, List.getElem?_map, Option.map_eq_some_iff] at hw
  obtain ⟨t, ht, rfl⟩ := hw
  exact ⟨t, ht, rfl⟩

theorem channels_ofAssembly {i : Nat} {ch : Channel}
    (hc : (ofAssembly a).channels[i]? = some ch) : ch = .new := by
  simp only [ofAssembly, List.getElem?_map, Option.map_eq_some_iff] at hc
  obtain ⟨_, _, rfl⟩ := hc
  rfl

/-- The place of an item in a list of lists without repetition is unique. -/
theorem flatMap_place_unique {α : Type} {f : α → List Nat} {l : List α} {k j pos pos' i : Nat}
    {x y : α} (h : (l.flatMap f).Nodup) (hx : l[k]? = some x) (hi : (f x)[pos]? = some i)
    (hy : l[j]? = some y) (hi' : (f y)[pos']? = some i) : k = j ∧ pos = pos' := by
  obtain ⟨hin, hout⟩ := List.nodup_flatMap.mp h
  have hkj : k = j := by
    by_contra hne
    obtain ⟨hk, rfl⟩ := List.getElem?_eq_some_iff.mp hx
    obtain ⟨hj, rfl⟩ := List.getElem?_eq_some_iff.mp hy
    rcases Nat.lt_or_gt_of_ne hne with hlt | hlt
    · exact List.pairwise_iff_getElem.mp hout k j hk hj hlt (List.mem_of_getElem? hi)
        (List.mem_of_getElem? hi')
    · exact List.pairwise_iff_getElem.mp hout j k hj hk hlt (List.mem_of_getElem? hi')
        (List.mem_of_getElem? hi)
  subst hkj
  rw [hx] at hy
  cases hy
  have hpos : pos < (f x).length := (List.getElem?_eq_some_iff.mp hi).1
  exact ⟨rfl, (List.getElem?_inj hpos (hin x (List.mem_of_getElem? hx))).mp (hi.trans hi'.symm)⟩

/-- The workers of a laid out assembly form a tree. -/
theorem wired_ofAssembly (hl : Assembly.Layout p c a.tasks schemas [a.output]) :
    (ofAssembly a).Wired a.output where
  size := by simp [ofAssembly]
  root := by
    have hmem : a.output ∈ List.range a.tasks.length :=
      hl.used.mem_iff.mp (List.mem_append_right _ List.mem_cons_self)
    simpa [ofAssembly] using hmem
  writes := by
    intro k w hw
    obtain ⟨t, ht, rfl⟩ := workers_ofAssembly hw
    exact (hl.laid k t ht).output
  earlier := by
    intro k w hw
    obtain ⟨t, ht, rfl⟩ := workers_ofAssembly hw
    exact (hl.laid k t ht).earlier
  reader := by
    intro k w pos l v pos' i hw hi hv hi'
    obtain ⟨t, ht, rfl⟩ := workers_ofAssembly hw
    obtain ⟨u, hu, rfl⟩ := workers_ofAssembly hv
    have hall : (a.tasks.flatMap Task.inputs ++ [a.output]).Nodup :=
      hl.used.nodup_iff.mpr List.nodup_range
    exact flatMap_place_unique (List.nodup_append.mp hall).1 ht hi hu hi'
  unread := by
    intro k w hw hmem
    obtain ⟨t, ht, rfl⟩ := workers_ofAssembly hw
    have hall : (a.tasks.flatMap Task.inputs ++ [a.output]).Nodup :=
      hl.used.nodup_iff.mpr List.nodup_range
    have hread : a.output ∈ a.tasks.flatMap Task.inputs :=
      List.mem_flatMap.mpr ⟨t, List.mem_of_getElem? ht, hmem⟩
    exact (List.nodup_append.mp hall).2.2 _ hread _ List.mem_cons_self rfl
  read := by
    intro i hi hne
    have hmem : i ∈ a.tasks.flatMap Task.inputs ++ [a.output] :=
      hl.used.mem_iff.mpr (by simpa [ofAssembly] using hi)
    rcases List.mem_append.mp hmem with hmem | hmem
    · obtain ⟨t, ht, hin⟩ := List.mem_flatMap.mp hmem
      obtain ⟨k, hk⟩ := List.mem_iff_getElem?.mp ht
      exact ⟨k, ⟨t.inputs, t.output, .working t.operator.stage false⟩,
        by simp [ofAssembly, hk], hin⟩
    · exact absurd (List.mem_singleton.mp hmem) hne

theorem sound_ofAssembly (hl : Assembly.Layout p c a.tasks schemas [a.output]) :
    (ofAssembly a).Sound a.output where
  toWired := wired_ofAssembly hl
  apt := by
    intro k w hw
    obtain ⟨t, ht, rfl⟩ := workers_ofAssembly hw
    refine ⟨?_, fun h => by cases h⟩
    rw [(hl.laid k t ht).arity]
    exact Stage.fits_start _
  sink := by
    intro k w ch hw hc
    obtain ⟨t, ht, rfl⟩ := workers_ofAssembly hw
    obtain rfl := channels_ofAssembly hc
    exact ⟨rfl, iff_of_false Channel.not_closed_new (by simp [Life.ended?])⟩
  source := by
    intro k w pos i ch hw hi hc
    obtain ⟨t, ht, rfl⟩ := workers_ofAssembly hw
    obtain rfl := channels_ofAssembly hc
    refine ⟨rfl, ?_, fun hended => by cases hended⟩
    intro s waiting hlife
    cases hlife
    exact (Stage.exhausted_start _ _).symm
  spent := by
    intro i ch hc hfinished
    obtain rfl := channels_ofAssembly hc
    cases hfinished

end Start

end Network

end StreamQuery
