import TarGuard.Extraction.Run
import TarGuard.Proofs.Cursor
import TarGuard.Proofs.Ends

namespace TarGuard

inductive EndAlike (r : σ → σ → Prop) : EStateM.Result ε σ α → EStateM.Result ε σ α → Prop
  | ok {a s t} : r s t → EndAlike r (.ok a s) (.ok a t)
  | error {e s t} : r s t → EndAlike r (.error e s) (.error e t)

def Onward (position : σ → Nat) (s t : σ) : Prop :=
  position s ≤ position t

instance {position : σ → Nat} : Std.Refl (Onward position) where
  refl _ := Nat.le_refl _

instance {position : σ → Nat} : Trans (Onward position) (Onward position) (Onward position) where
  trans := Nat.le_trans

-- What a program does depends only on what there is up to the position at which it ends. From two
-- states that agree up to some position it ends alike, unless it gets beyond that.
structure Local (position : σ → Nat) (agree : Nat → σ → σ → Prop) (x : EStateM ε σ α) : Prop where
  forward : Keeps (Onward position) x
  alike   : ∀ {n s t}, agree n s t → position (finalState x s) ≤ n → EndAlike (agree n) (x s) (x t)

namespace Local

variable {position : σ → Nat} {agree : Nat → σ → σ → Prop} {x : EStateM ε σ α} {a : α} {e : ε}
  {s t u : σ} {n : Nat}

theorem pure (a : α) : Local position agree (Pure.pure a : EStateM ε σ α) :=
  ⟨Keeps.pure a, fun h _ => .ok h⟩

theorem throw (e : ε) : Local position agree (MonadExcept.throw e : EStateM ε σ α) :=
  ⟨Keeps.throw e, fun h _ => .error h⟩

theorem require (r : Except ε α) : Local position agree (TarGuard.require r : EStateM ε σ α) := by
  cases r with
  | ok a => exact pure a
  | error e => exact throw e

theorem modify {f : σ → σ} (hp : ∀ s, position s ≤ position (f s))
    (ha : ∀ {n s t}, agree n s t → agree n (f s) (f t)) :
    Local position agree (modify f : EStateM ε σ PUnit) :=
  ⟨Keeps.modify hp, fun h _ => .ok (ha h)⟩

theorem of_ok (hx : Local position agree x) (h : agree n s t) (hs : x s = .ok a u)
    (hn : position u ≤ n) : ∃ v, x t = .ok a v ∧ agree n u v := by
  have ha := hx.alike h (by rwa [finalState_of_ok hs])
  rw [hs] at ha
  generalize hv : x t = r at ha
  cases ha with
  | ok ha => exact ⟨_, rfl, ha⟩

theorem of_error (hx : Local position agree x) (h : agree n s t) (hs : x s = .error e u)
    (hn : position u ≤ n) : ∃ v, x t = .error e v ∧ agree n u v := by
  have ha := hx.alike h (by rwa [finalState_of_error hs])
  rw [hs] at ha
  generalize hv : x t = r at ha
  cases ha with
  | error ha => exact ⟨_, rfl, ha⟩

theorem bind {f : α → EStateM ε σ β} (hx : Local position agree x)
    (hf : ∀ a, Local position agree (f a)) : Local position agree (x >>= f) where
  forward := hx.forward.bind fun a => (hf a).forward
  alike {n s t} h hn := by
    cases hs : x s with
    | error e u =>
      rw [finalState_of_error (bind_of_error hs)] at hn
      obtain ⟨v, ht, ha⟩ := hx.of_error h hs hn
      rw [bind_of_error hs, bind_of_error ht]
      exact .error ha
    | ok a u =>
      rw [finalState, bind_of_ok hs, ← finalState] at hn
      obtain ⟨v, ht, ha⟩ := hx.of_ok h hs (Nat.le_trans ((hf a).forward u) hn)
      rw [bind_of_ok hs, bind_of_ok ht]
      exact (hf a).alike ha hn

theorem get_bind {f : σ → EStateM ε σ α} (hf : ∀ s, Local position agree (f s))
    (he : ∀ {n s t}, agree n s t → f s = f t) : Local position agree (get >>= f) where
  forward := Keeps.get.bind fun s => (hf s).forward
  alike {n s t} h hn := by
    have ha := (hf s).alike h hn
    change EndAlike (agree n) (f s s) (f t t)
    rwa [← he h]

theorem withCleanUp {f : σ → σ} (hx : Local position agree x)
    (hp : ∀ s, position s ≤ position (f s)) (ha : ∀ {n s t}, agree n s t → agree n (f s) (f t)) :
    Local position agree (withCleanUp f x) where
  forward := hx.forward.withCleanUp hp
  alike {n s t} h hn := by
    have hs : position (finalState x s) ≤ n := by
      refine Nat.le_trans ?_ hn
      unfold finalState TarGuard.withCleanUp
      cases x s with
      | ok a u => exact Nat.le_refl _
      | error e u => exact hp u
    have hxt := hx.alike h hs
    unfold TarGuard.withCleanUp
    generalize x s = r at hxt
    generalize x t = r' at hxt
    cases hxt with
    | ok h => exact .ok h
    | error h => exact .error (ha h)

end Local

namespace Input

-- Two streams are at the same position. From there on they have the same bytes up to another one,
-- and if one of them ends before that, they end in the same way.
structure AgreesUpTo (n : Nat) (s t : Input) : Prop where
  joints    : s.joints = [] ∧ t.joints = []
  delivered : s.delivered = t.delivered
  bytes     : s.remaining.take (n - s.delivered) = t.remaining.take (n - s.delivered)
  ending    : s.delivered + s.remaining.length ≤ n →
    s.remaining = t.remaining ∧ s.ending = t.ending

variable {s t : Input} {most m n : Nat}

theorem AgreesUpTo.of_schedule (bytes : List UInt8) (ending : Ending)
    (schedule schedule' : Schedule) (n : Nat) :
    AgreesUpTo n { remaining := bytes, ending := ending, schedule := schedule }
      { remaining := bytes, ending := ending, schedule := schedule' } :=
  ⟨⟨rfl, rfl⟩, rfl, rfl, fun _ => ⟨rfl, rfl⟩⟩

theorem AgreesUpTo.after (h : s.AgreesUpTo n t) (hn : (s.after m).delivered ≤ n) :
    s.remaining.take m = t.remaining.take m ∧ s.stopAt m = t.stopAt m ∧
      (s.after m).AgreesUpTo n (t.after m) := by
  simp only [Input.after] at hn
  by_cases hl : s.delivered + s.remaining.length ≤ n
  case pos =>
    -- Either stream may end here, and both are the same.
    obtain ⟨hr, he⟩ := h.ending hl
    refine ⟨by rw [hr], by rw [stopAt, stopAt, hr, he], h.joints, ?_, ?_, fun _ => ?_⟩
    · simp only [Input.after, h.delivered, hr]
    · simp only [Input.after, hr]
    · exact ⟨by simp only [Input.after, hr], he⟩
  case neg =>
    -- Neither stream ends before that position.
    have hlen := congrArg List.length h.bytes
    simp only [List.length_take] at hlen
    have hs : m ≤ s.remaining.length := by omega
    have ht : m ≤ t.remaining.length := by omega
    have hd : s.delivered + m ≤ n := by omega
    refine ⟨?_, by rw [stopAt, stopAt, if_pos hs, if_pos ht], h.joints, ?_, ?_, fun hle => ?_⟩
    · have := congrArg (List.take m) h.bytes
      rwa [List.take_take, List.take_take, Nat.min_eq_left (by omega)] at this
    · simp only [Input.after, h.delivered, Nat.min_eq_left hs, Nat.min_eq_left ht]
    · have := congrArg (List.drop m) h.bytes
      simpa only [Input.after, List.drop_take, Nat.min_eq_left hs, Nat.sub_add_eq] using this
    · simp only [Input.after, List.length_drop] at hle
      omega

theorem AgreesUpTo.gather (h : s.AgreesUpTo n t) (hm : 0 < most)
    (hn : (s.gather most m).2.2.delivered ≤ n) :
    ∃ bytes stop u v, s.gather most m = (bytes, stop, u) ∧ t.gather most m = (bytes, stop, v) ∧
      u.AgreesUpTo n v := by
  have ⟨schedule, hs⟩ := gather_eq h.joints.1 hm m
  have ⟨schedule', ht⟩ := gather_eq h.joints.2 hm m
  rw [hs] at hn
  have ⟨hb, hst, ha⟩ := h.after hn
  refine ⟨_, _, _, { t.after m with schedule := schedule' }, hs, ?_, ?_⟩
  · rw [ht, hb, hst]
  · exact ⟨ha.joints, ha.delivered, ha.bytes, ha.ending⟩

theorem local_of_gather {x : EStateM ε Input α} (hm : 0 < most)
    (hx : ∀ s, finalState x s = (s.gather most m).2.2)
    (ha : ∀ {r : Input → Input → Prop} {s t bytes stop u v}, s.gather most m = (bytes, stop, u) →
      t.gather most m = (bytes, stop, v) → r u v → EndAlike r (x s) (x t)) :
    Local Input.delivered AgreesUpTo x where
  forward s := by
    rw [hx, Onward, delivered_gather]
    omega
  alike {n s t} h hn := by
    rw [hx] at hn
    have ⟨_, _, u, v, hs, ht, hr⟩ := h.gather hm hn
    exact ha hs ht hr

theorem local_readBlock : Local Input.delivered AgreesUpTo readBlock := by
  apply local_of_gather (by decide) finalState_readBlock
  intro r s t bytes stop u v hs ht hr
  unfold readBlock
  split <;> cases hs.symm.trans ‹s.gather 512 512 = _› <;>
    split <;> cases ht.symm.trans ‹t.gather 512 512 = _›
  · exact .ok hr
  · exact .ok hr
  · exact .error hr
  · exact .error hr

theorem local_readRecord : Local Input.delivered AgreesUpTo readRecord :=
  local_readBlock.bind fun _ => Local.pure _

theorem local_readChunk {n : Nat} (hn : 0 < n) :
    Local Input.delivered AgreesUpTo (readChunk n) := by
  apply local_of_gather hn (finalState_readChunk n)
  intro r s t bytes stop u v hs ht hr
  unfold readChunk
  rw [hs, ht]
  cases stop with
  | filled => exact .ok hr
  | ended | broken => exact .error hr

theorem local_skip (n : Nat) : Local Input.delivered AgreesUpTo (skip n) := by
  apply local_of_gather (by decide) (finalState_skip n)
  intro r s t bytes stop u v hs ht hr
  unfold skip
  rw [hs, ht]
  cases stop with
  | filled => exact .ok hr
  | ended | broken => exact .error hr

theorem local_skipPayload (h : Header) : Local Input.delivered AgreesUpTo (skipPayload h) :=
  (Local.require _).bind fun _ => local_skip _

end Input
end TarGuard
