import Mathlib.Logic.Relation
import TaggedWire.Encoder.Session
import TaggedWire.Proofs.Appending

namespace TaggedWire

/-- What runs on an encoder: the writing of a value below its level, or a program. -/
inductive Job
  | value (v : Value)
  | steps (ss : List Step)

namespace Job

def run : Job → Write
  | value v => v.emit
  | steps ss => Step.runAll ss

theorem run_appends (j : Job) : j.run.Appends := by
  cases j with
  | value v => exact Value.emit_appends v
  | steps ss => exact Step.runAll_appends ss

/-- The job that runs at the first encoder may come to run the second job at the second encoder.
The entries of a map are taken in any order here, and the keys that are written apart whether or
not those before them fail. -/
inductive Starts : Job × Encoder → Job × Encoder → Prop
  | pointer {v e} (h) : Starts (value (.pointer v), e) (value v, (e.put [Tag.pointer]).deepen h)
  | field {vs v ws e m} (h) :
      Value.emitAll vs (Encoder.enter e) = .ok () m →
      Starts (value (.object (.plain (vs ++ v :: ws))), e) (value v, m.deepen h)
  | program {id ss e} : Starts (value (.object (.custom id ss [])), e) (steps ss, e)
  | item {k vs v ws m} {e : Encoder} (h) :
      (do
        Write.arrayTag k
        Write.count (vs ++ v :: ws).length
        Value.emitItems k vs : Write) e = .ok () m →
      Starts (value (.array k (vs ++ v :: ws)), e) (value v, m.deepen h)
  | key {j k es a} {e : Encoder} (h) :
      a ∈ es → Starts (value (.map j k es), e) (value a.1, e.scratch.deepen h)
  | entry {j k es before a after e m} (h) :
      (before ++ a :: after).Perm es →
      (do
        Write.put [Tag.object.asArray]
        Write.count es.length
        before.forM Value.writeEntry : Write) e = .ok () m →
      Starts (value (.map j k es), e) (value (.object (.plain [a.1, a.2])), m.deepen h)
  | written {ss v ts e m} (h) :
      Step.runAll ss e = .ok () m → Starts (steps (ss ++ .value v :: ts), e) (value v, m.deepen h)
  | record {ss o ts e m} (h) :
      Step.runAll ss e = .ok () m →
      Starts (steps (ss ++ .record o :: ts), e) (value (.object o), m.deepen h)
  | object {ss body ts e m} :
      Step.runAll ss e = .ok () m →
      Starts (steps (ss ++ .object body :: ts), e) (steps body, m.enter)
  | attempt {ss body ts e m} :
      Step.runAll ss e = .ok () m → Starts (steps (ss ++ .attempt body :: ts), e) (steps body, m)

/-- Of the job and of those that it comes to run, at whatever remove. -/
abbrev Within : Job × Encoder → Job × Encoder → Prop := Relation.ReflTransGen Starts

end Job

def Encoder.Below (e m : Encoder) : Prop := m.options = e.options ∧ e.depth ≤ m.depth

namespace Encoder.Below

variable {e m n : Encoder}

theorem refl (e : Encoder) : e.Below e := ⟨rfl, Nat.le_refl _⟩

theorem trans (h : e.Below m) (h' : m.Below n) : e.Below n :=
  ⟨h'.1.trans h.1, Nat.le_trans h.2 h'.2⟩

theorem deepen (h : e.Below m) (hd : m.depth < m.options.maxDepth) : e.Below (m.deepen hd) :=
  ⟨h.1, Nat.le_succ_of_le h.2⟩

theorem enter (h : e.Below m) : e.Below m.enter := h

theorem of_ok {w : Write} (hw : w.Appends) (h : w e = .ok () m) : e.Below m := by
  obtain ⟨-, bs, rfl⟩ := hw.of_ok h
  exact refl e

theorem depth_le (h : e.Below m) : m.depth ≤ e.options.maxDepth := h.1 ▸ m.depth_le

end Encoder.Below

namespace Job

variable {p q : Job × Encoder}

theorem Starts.below (h : Starts p q) : p.2.Below q.2 := by
  cases h with
  | pointer h => exact .deepen (.refl _) h
  | field h hm => exact (Encoder.Below.of_ok (Value.emitAll_appends _) hm).deepen h
  | program => exact .refl _
  | item h hm =>
    refine (Encoder.Below.of_ok ?_ hm).deepen h
    exact (Write.Appends.arrayTag _).seq ((Write.Appends.count _).seq (Value.emitItems_appends _ _))
  | key h => exact .deepen (.refl _) h
  | @entry _ _ _ before _ _ _ _ h _ hm =>
    have hentries : Write.Appends (before.forM Value.writeEntry) :=
      .forM fun a _ ↦ Value.writeEntry_appends a
    refine (Encoder.Below.of_ok ?_ hm).deepen h
    exact (Write.Appends.put _).seq ((Write.Appends.count _).seq hentries)
  | written h hm | record h hm => exact (Encoder.Below.of_ok (Step.runAll_appends _) hm).deepen h
  | object hm => exact (Encoder.Below.of_ok (Step.runAll_appends _) hm).enter
  | attempt hm => exact .of_ok (Step.runAll_appends _) hm

theorem Within.below (h : Within p q) : p.2.Below q.2 := by
  induction h with
  | refl => exact .refl _
  | tail _ hstart ih => exact ih.trans hstart.below

end Job

namespace Encoder

def afterCall (e : Encoder) (call : Step) : Except Defect Encoder :=
  match call.run e with
  | .ok () m | .error (.fault _) m => .ok m
  | .error (.defect d) _ => .error d

def afterAll (e : Encoder) (calls : List Step) : Except Defect Encoder := calls.foldlM afterCall e

variable {e m : Encoder} {d : Defect} {call : Step} {calls : List Step}

theorem put_of_afterCall (h : e.afterCall call = .ok m) : ∃ bs, m = e.put bs := by
  unfold afterCall at h
  split at h <;> cases h
  · exact (Step.run_appends call).put_of_ends (.inl ‹_›)
  · exact (Step.run_appends call).put_of_ends (.inr ⟨_, ‹_›⟩)

theorem customFields_of_afterCall (h : e.afterCall call = .error d) : d = .customFields := by
  unfold afterCall at h
  split at h <;> cases h
  exact ((Step.run_appends call).of_error ‹_›).1

theorem put_of_afterAll (h : e.afterAll calls = .ok m) : ∃ bs, m = e.put bs := by
  induction calls generalizing e with
  | nil =>
    cases h
    exact ⟨[], m.put_nil.symm⟩
  | cons call calls ih =>
    rw [afterAll, List.foldlM_cons, bind_eq_ok] at h
    obtain ⟨e', hcall, hcalls⟩ := h
    obtain ⟨bs, rfl⟩ := put_of_afterCall hcall
    obtain ⟨cs, rfl⟩ := ih hcalls
    exact ⟨bs ++ cs, e.put_put bs cs⟩

theorem customFields_of_afterAll (h : e.afterAll calls = .error d) : d = .customFields := by
  induction calls generalizing e with
  | nil => cases h
  | cons call calls ih =>
    rw [afterAll, List.foldlM_cons] at h
    cases hcall : e.afterCall call with
    | error d' =>
      rw [hcall] at h
      cases h
      exact customFields_of_afterCall hcall
    | ok e' =>
      rw [hcall, ok_bind] at h
      exact ih h

theorem session_defect (e : Encoder) (calls : List Step) :
    (e.session calls).defect? = match e.afterAll calls with
      | .ok _ => none
      | .error d => some d := by
  induction calls generalizing e with
  | nil => rfl
  | cons call calls ih =>
    cases hcall : call.run e with
    | ok u m =>
      simp only [session, afterAll, List.foldlM_cons, afterCall, hcall, ok_bind]
      exact ih m
    | error f m =>
      cases f <;> simp only [session, afterAll, List.foldlM_cons, afterCall, hcall, ok_bind]
      · exact ih m
      · rfl

theorem finish_put (hn : e.buffers.nesting = 0) (bs : List UInt8) :
    (e.put bs).finish = .ok (e.buffers.active.toList ++ bs) := by
  have hw : e.buffers.waiting = [] := List.length_eq_zero_iff.mp hn
  simp [finish, Buffers.finish, put, Buffers.put, hw]

/-- After any calls, failed ones included, an encoder differs only in bytes at the end of its
active buffer, so that one that started without open objects can be finished. The only defect is
that of an object with fields beside its program. While a call runs, whatever it comes to run is
run under the same options, within their limit, and itself does no more than put some bytes. -/
theorem session_keeps (e : Encoder) (calls : List Step) :
    (match e.afterAll calls with
      | .ok m => (e.session calls).defect? = none ∧ ∃ bs, m = e.put bs ∧
          (e.buffers.nesting = 0 → m.finish = .ok (e.buffers.active.toList ++ bs))
      | .error d => (e.session calls).defect? = some d ∧ d = .customFields) ∧
    ∀ before call after m, calls = before ++ call :: after → e.afterAll before = .ok m →
      ∀ job n, Job.Within (.steps [call], m) (job, n) →
        n.options = e.options ∧ e.depth ≤ n.depth ∧ n.depth ≤ e.options.maxDepth ∧
        ∀ n', (job.run n = .ok () n' ∨ ∃ f, job.run n = .error f n') → ∃ bs, n' = n.put bs := by
  constructor
  · have hsession := e.session_defect calls
    cases h : e.afterAll calls with
    | ok m =>
      rw [h] at hsession
      obtain ⟨bs, rfl⟩ := put_of_afterAll h
      exact ⟨hsession, bs, rfl, fun hn ↦ finish_put hn bs⟩
    | error d =>
      rw [h] at hsession
      exact ⟨hsession, customFields_of_afterAll h⟩
  · intro before call after m _ hm job n hjob
    obtain ⟨bs, rfl⟩ := put_of_afterAll hm
    have hbelow : e.Below n := hjob.below
    exact ⟨hbelow.1, hbelow.2, hbelow.depth_le, fun n' ↦ job.run_appends.put_of_ends⟩

/-- An object that fails takes with it the one inside it, and is out of the way of the next. -/
example : (Encoder.fresh {}).afterAll
    [.tag 1, .object [.raw [2], .object [.raw [3]], .fail (.unsupported .map)], .object []] =
      .ok ((Encoder.fresh {}).put [1, 0x00, 0x07, 0, 0, 0, 0x0F, 0x10, 0x11]) := by
  rfl

end Encoder

end TaggedWire
