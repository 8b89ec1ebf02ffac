import Mathlib.Algebra.BigOperators.Group.Finset.Piecewise
import Unp.Downloader.Download

/-!
# Running the connections

`start` interleaves the callbacks of the open connections in some order. The order does not matter to
a connection, which sees its own callbacks only; and it does not matter to the download, whose
`bytesRemained_` goes down by what all of them report together.
-/

namespace Unp.Downloader

open Unp.Machine

/-- The callbacks of one connection. -/
def eventsOf (k : Nat) (schedule : List (Nat × Event)) : List Event :=
  (schedule.filter fun call => call.1 = k).map Prod.snd

theorem eventsOf_cons_self (k : Nat) (event : Event) (schedule : List (Nat × Event)) :
    eventsOf k ((k, event) :: schedule) = event :: eventsOf k schedule := by
  simp [eventsOf]

theorem eventsOf_cons_ne {k c : Nat} (event : Event) (schedule : List (Nat × Event)) (hne : c ≠ k) :
    eventsOf k ((c, event) :: schedule) = eventsOf k schedule := by
  simp [eventsOf, hne]

/-- What `start` leaves as it is. -/
structure SameTask (d d' : Download) : Prop where
  id_eq : d'.id = d.id
  url_eq : d'.url = d.url
  hasCallback_eq : d'.hasCallback = d.hasCallback
  retryTimes_eq : d'.retryTimes = d.retryTimes
  calls_eq : ∃ n, d'.calls = d.calls ++ List.replicate n (.taskUpdated d.id)

namespace SameTask
variable {d d₁ d' : Download}

theorem refl (d : Download) : SameTask d d := ⟨rfl, rfl, rfl, rfl, 0, by simp⟩

theorem trans (h₁ : SameTask d d₁) (h₂ : SameTask d₁ d') : SameTask d d' where
  id_eq := h₂.id_eq.trans h₁.id_eq
  url_eq := h₂.url_eq.trans h₁.url_eq
  hasCallback_eq := h₂.hasCallback_eq.trans h₁.hasCallback_eq
  retryTimes_eq := h₂.retryTimes_eq.trans h₁.retryTimes_eq
  calls_eq := by
    obtain ⟨m, hm⟩ := h₁.calls_eq
    obtain ⟨n, hn⟩ := h₂.calls_eq
    refine ⟨m + n, ?_⟩
    rw [hn, hm, h₁.id_eq, List.append_assoc, List.replicate_append_replicate]

end SameTask

namespace Download
variable {d d' : Download}

/-- `bytesRemained_` goes down by what was reported, modulo `2 ^ 64`. -/
structure CountsDown (d d' : Download) (bytes : Nat) : Prop where
  bytes_eq : (d'.bytesRemained + bytes) % 2 ^ 64 = d.bytesRemained % 2 ^ 64
  lt : d.bytesRemained < 2 ^ 64 → d'.bytesRemained < 2 ^ 64

theorem told_ok {report : Option Nat} (hd : told report d = .ok d') :
    SameTask d d' ∧ d'.connections = d.connections ∧ CountsDown d d' (report.getD 0) ∧
      (d.hasCallback = false → report = none) := by
  cases report with
  | none =>
      cases hd
      exact ⟨.refl d, rfl, ⟨rfl, fun hlt => hlt⟩, fun _ => rfl⟩
  | some size =>
      rw [told, downloadUpdateCallback] at hd
      split at hd
      · next hcallback =>
          cases hd
          refine ⟨⟨rfl, rfl, rfl, rfl, 1, rfl⟩, rfl, ⟨?_, ?_⟩, by simp [hcallback]⟩
          · simp only [subU64, u64, Option.getD_some]
            omega
          · intro _
            exact Nat.mod_lt _ (by decide)
      · cases hd

/-- One callback: the connection handles it, and the download hears what it reports. -/
theorem deliver_ok {c : Nat} {event : Event} (hd : d.deliver (c, event) = .ok d') :
    ∃ h report h', d.connections[c]? = some h ∧ h.handle event = .ok (report, h') ∧
      SameTask d d' ∧ d'.connections = d.connections.set c h' ∧ CountsDown d d' (report.getD 0) ∧
      (d.hasCallback = false → report = none) := by
  rw [deliver] at hd
  obtain ⟨h, hread, hd⟩ := bind_eq_ok hd
  obtain ⟨⟨report, h'⟩, hhandle, hd⟩ := bind_eq_ok hd
  obtain ⟨hsame, hconnections, hbytes, hsilent⟩ := told_ok hd
  exact ⟨h, report, h', readAt_eq_ok hread, hhandle, ⟨hsame.1, hsame.2, hsame.3, hsame.4, hsame.5⟩,
    hconnections, ⟨hbytes.1, hbytes.2⟩, hsilent⟩

/-- What `start` does: `reports` is what each connection reports in all. -/
structure Started (schedule : List (Nat × Event)) (d d' : Download) (reports : Nat → Nat) :
    Prop where
  sameTask : SameTask d d'
  length_eq : d'.connections.length = d.connections.length
  fed : ∀ k h, d.connections[k]? = some h → ∃ h', d'.connections[k]? = some h' ∧
    Handler.feed (eventsOf k schedule) h = .ok (reports k, h')
  bytes : CountsDown d d' (∑ k ∈ Finset.range d.connections.length, reports k)
  silent : d.hasCallback = false → ∀ k < d.connections.length, reports k = 0

theorem start_ok {schedule : List (Nat × Event)} (hd : d.start schedule = .ok d') :
    ∃ reports, Started schedule d d' reports := by
  induction schedule generalizing d with
  | nil =>
      cases hd
      exact ⟨fun _ => 0, .refl _, rfl, fun k h hk => ⟨h, hk, rfl⟩, ⟨by simp, fun hlt => hlt⟩,
        fun _ _ _ => rfl⟩
  | cons call schedule ih =>
      obtain ⟨c, event⟩ := call
      rw [start, List.foldlM_cons] at hd
      obtain ⟨d₁, hdeliver, hd⟩ := bind_eq_ok hd
      obtain ⟨h, report, h₁, hget, hhandle, hsame, hconnections, hbytes, hsilent⟩ :=
        deliver_ok hdeliver
      obtain ⟨reports, hstarted⟩ := ih hd
      have hlength : d₁.connections.length = d.connections.length := by
        rw [hconnections, List.length_set]
      have hc : c < d.connections.length := (List.getElem?_eq_some_iff.mp hget).1
      refine ⟨fun k => (if c = k then report.getD 0 else 0) + reports k,
        hsame.trans hstarted.sameTask, hstarted.length_eq.trans hlength, ?_, ⟨?_, ?_⟩, ?_⟩
      · intro k g hk
        by_cases hck : c = k
        · -- the connection whose turn it was
          subst hck
          obtain rfl : h = g := by rw [hget] at hk; exact Option.some.inj hk
          obtain ⟨h', hget', hfeed⟩ := hstarted.fed c h₁ (by rw [hconnections]; simp [hc])
          refine ⟨h', hget', ?_⟩
          rw [eventsOf_cons_self, if_pos rfl]
          exact Handler.feed_cons_eq_ok.mpr ⟨report, h₁, reports c, hhandle, hfeed, rfl⟩
        · rw [eventsOf_cons_ne event schedule hck, if_neg hck, Nat.zero_add]
          exact hstarted.fed k g (by rw [hconnections, List.getElem?_set_ne hck, hk])
      · have hbytes₁ := hbytes.bytes_eq
        have hbytes' := hstarted.bytes.bytes_eq
        rw [hlength] at hbytes'
        rw [Finset.sum_add_distrib, Finset.sum_ite_eq, if_pos (Finset.mem_range.mpr hc)]
        omega
      · intro hlt
        exact hstarted.bytes.lt (hbytes.lt hlt)
      · intro hcallback k hk
        rw [hsilent hcallback, hstarted.silent (by rw [hsame.hasCallback_eq, hcallback]) k
          (by rw [hlength]; exact hk)]
        simp

end Download

end Unp.Downloader
