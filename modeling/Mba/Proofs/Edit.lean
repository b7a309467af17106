import Mba.Edit

/-!
# Edits that are done

How a computation that has come to an end must have gone, or will go: one lemma for each way of
putting computations together.
-/

namespace Mba

variable {σ ε δ α β : Type}

/-! ## Computations that only read -/

/-- The first step of a computation that succeeds has succeeded. -/
theorem bind_eq_ok {m : Except ε α} {next : α → Except ε β} {b : β} :
    (m >>= next) = .ok b ↔ ∃ a, m = .ok a ∧ next a = .ok b := by
  cases m <;> simp [bind, Except.bind]

theorem bind_eq_error {m : Except ε α} {next : α → Except ε β} {e : ε} :
    (m >>= next) = .error e ↔ m = .error e ∨ ∃ a, m = .ok a ∧ next a = .error e := by
  cases m <;> simp [bind, Except.bind]

theorem map_eq_ok {m : Except ε α} {f : α → β} {b : β} :
    m.map f = .ok b ↔ ∃ a, m = .ok a ∧ f a = b := by
  cases m <;> simp [Except.map]

theorem lift_eq_ok {m : Except Fault α} {a : α} :
    (liftM m : Attempt ε α) = .ok a ↔ m = .ok a := by
  cases m with
  | ok b => constructor <;> rintro ⟨⟩ <;> rfl
  | error f => constructor <;> rintro ⟨⟩

theorem mapM_congr {f g : α → Except ε β} {l : List α} (h : ∀ a ∈ l, f a = g a) :
    l.mapM f = l.mapM g := by
  induction l with
  | nil => rfl
  | cons a rest ih =>
    rw [List.mapM_cons, List.mapM_cons, h a List.mem_cons_self,
      ih fun a' ha' => h a' (List.mem_cons_of_mem _ ha')]

/-- What is wrong with a list is wrong with one of its items. -/
theorem exists_of_mapM_eq_error {f : α → Except ε β} {l : List α} {e : ε} (h : l.mapM f = .error e) :
    ∃ a ∈ l, f a = .error e := by
  induction l with
  | nil => cases h
  | cons a rest ih =>
    rw [List.mapM_cons] at h
    cases ha : f a with
    | error e' =>
      rw [ha] at h
      cases h
      exact ⟨a, List.mem_cons_self, ha⟩
    | ok b =>
      rw [ha] at h
      cases hrest : rest.mapM f with
      | error e' =>
        rw [hrest] at h
        cases h
        obtain ⟨a', ha', hfound⟩ := ih hrest
        exact ⟨a', List.mem_cons_of_mem _ ha', hfound⟩
      | ok more =>
        rw [hrest] at h
        cases h

/-- What comes of a list comes of its items. -/
theorem exists_of_mem_mapM {f : α → Except ε β} {l : List α} {found : List β}
    (h : l.mapM f = .ok found) {b : β} (hb : b ∈ found) : ∃ a ∈ l, f a = .ok b := by
  induction l generalizing found with
  | nil =>
    cases h
    cases hb
  | cons a rest ih =>
    rw [List.mapM_cons] at h
    obtain ⟨c, hc, hrest⟩ := bind_eq_ok.1 h
    obtain ⟨more, hmore, hpure⟩ := bind_eq_ok.1 hrest
    cases hpure
    rcases List.mem_cons.1 hb with rfl | hb
    · exact ⟨a, List.mem_cons_self, hc⟩
    · obtain ⟨a', ha', hfound⟩ := ih hmore hb
      exact ⟨a', List.mem_cons_of_mem _ ha', hfound⟩

/-! ## Computations that change a state -/

/-- The value and the state of an edit that is done. -/
def Outcome.done? : Outcome σ ε α → Option (α × σ)
  | .done a s => some (a, s)
  | .failed _ _ => none
  | .fault _ => none

theorem Outcome.done?_eq_some_iff {outcome : Outcome σ ε α} {a : α} {s : σ} :
    outcome.done? = some (a, s) ↔ outcome = .done a s := by
  cases outcome <;> simp [done?]

theorem Outcome.answer_eq_error_iff {outcome : Outcome σ ε α} {e : ε} :
    outcome.answer = .error (.error e) ↔ ∃ s, outcome = .failed e s := by
  cases outcome <;> simp [answer, eq_comm]

theorem Outcome.answer_eq_ok_iff {outcome : Outcome σ ε α} {a : α} :
    outcome.answer = .ok a ↔ ∃ s, outcome = .done a s := by
  cases outcome <;> simp [answer, eq_comm]

namespace Edit

theorem read_done {query : σ → Attempt ε α} {s : σ} {a : α} (h : query s = .ok a) :
    read query s = .done a s := by
  simp only [read, h]

theorem step_done {change : σ → Except Fault (α × σ)} {s s' : σ} {a : α}
    (h : change s = .ok (a, s')) : (step change : Edit σ ε α) s = .done a s' := by
  simp only [step, h]

theorem change_done {next : σ → Except Fault σ} {s s' : σ} (h : next s = .ok s') :
    (change next : Edit σ ε Unit) s = .done () s' := by
  simp only [change, h]

/-- An edit that is done has done its first step. -/
theorem bind_eq_done {m : Edit σ ε α} {next : α → Edit σ ε β} {s s' : σ} {b : β} :
    (m >>= next) s = .done b s' ↔ ∃ a t, m s = .done a t ∧ next a t = .done b s' := by
  cases h : m s with
  | done a t =>
    rw [bind_done h]
    constructor
    · exact fun hnext => ⟨a, t, rfl, hnext⟩
    · rintro ⟨a', t', ⟨⟩, hnext⟩
      exact hnext
  | failed e t =>
    rw [bind_failed h]
    exact ⟨nofun, fun ⟨_, _, hm, _⟩ => nomatch hm⟩
  | fault f =>
    rw [bind_fault h]
    exact ⟨nofun, fun ⟨_, _, hm, _⟩ => nomatch hm⟩

theorem read_eq_done {query : σ → Attempt ε α} {s s' : σ} {a : α} :
    read query s = .done a s' ↔ query s = .ok a ∧ s' = s := by
  unfold read
  rcases query s with (f | e) | a' <;> simp [eq_comm]

theorem step_eq_done {change : σ → Except Fault (α × σ)} {s s' : σ} {a : α} :
    (step change : Edit σ ε α) s = .done a s' ↔ change s = .ok (a, s') := by
  unfold step
  rcases change s with f | ⟨a', t⟩ <;> simp

theorem mapError_eq_done {m : Edit σ ε α} {rename : ε → δ} {s s' : σ} {a : α} :
    mapError rename m s = .done a s' ↔ m s = .done a s' := by
  unfold mapError
  cases m s <;> simp

/-- An edit that fails has failed in its first step, or behind it. -/
theorem bind_eq_failed {m : Edit σ ε α} {next : α → Edit σ ε β} {s s' : σ} {e : ε} :
    (m >>= next) s = .failed e s' ↔
      m s = .failed e s' ∨ ∃ a t, m s = .done a t ∧ next a t = .failed e s' := by
  cases h : m s with
  | done a t =>
    rw [bind_done h]
    constructor
    · exact fun hnext => .inr ⟨a, t, rfl, hnext⟩
    · rintro (hm | ⟨a', t', ⟨⟩, hnext⟩)
      · cases hm
      · exact hnext
  | failed e' t =>
    rw [bind_failed h]
    constructor
    · rintro ⟨⟩
      exact .inl rfl
    · rintro (⟨⟨⟩⟩ | ⟨_, _, hm, _⟩)
      · rfl
      · cases hm
  | fault f =>
    rw [bind_fault h]
    exact ⟨nofun, fun hm => hm.elim nofun fun ⟨_, _, hm, _⟩ => nomatch hm⟩

instance : LawfulMonad (Edit σ ε) :=
  LawfulMonad.mk' _
    (fun m => funext fun s => by
      show Edit.bind m (fun a => pure a) s = _
      unfold Edit.bind
      cases m s <;> rfl)
    (fun _ _ => rfl)
    (fun m next next' => funext fun s => by
      show Edit.bind (Edit.bind m next) next' s = Edit.bind m (fun a => Edit.bind (next a) next') s
      unfold Edit.bind
      cases m s <;> rfl)

/-- Edits go on alike from where they have come alike. -/
theorem bind_congr {m m' : Edit σ ε α} {next : α → Edit σ ε β} {s s' : σ} (h : m s = m' s') :
    (m >>= next) s = (m' >>= next) s' := by
  show Edit.bind m next s = Edit.bind m' next s'
  rw [Edit.bind, Edit.bind, h]

theorem read_fault {query : σ → Attempt ε α} {s : σ} {f : Fault} (h : query s = .error (.fault f)) :
    read query s = .fault f := by
  simp only [read, h]

theorem read_failed {query : σ → Attempt ε α} {s : σ} {e : ε} (h : query s = .error (.error e)) :
    read query s = .failed e s := by
  simp only [read, h]

theorem map_failed {m : Edit σ ε α} {s s' : σ} {e : ε} (h : m s = .failed e s') (f : α → β) :
    (f <$> m) s = .failed e s' :=
  bind_failed h

theorem mapError_failed {m : Edit σ ε α} {s s' : σ} {e : ε} (h : m s = .failed e s')
    (rename : ε → δ) : mapError rename m s = .failed (rename e) s' := by
  simp only [mapError, h]

theorem map_done {m : Edit σ ε α} {s s' : σ} {a : α} (h : m s = .done a s') (f : α → β) :
    (f <$> m) s = .done (f a) s' :=
  bind_done h

theorem map_eq_done {m : Edit σ ε α} {f : α → β} {s s' : σ} {b : β} :
    (f <$> m) s = .done b s' ↔ ∃ a, m s = .done a s' ∧ f a = b := by
  refine bind_eq_done.trans ⟨?_, fun ⟨a, hm, hb⟩ => ⟨a, s', hm, hb ▸ rfl⟩⟩
  rintro ⟨a, t, hm, ⟨⟩⟩
  exact ⟨a, hm, rfl⟩

theorem map_eq_failed {m : Edit σ ε α} {f : α → β} {s s' : σ} {e : ε} :
    (f <$> m) s = .failed e s' ↔ m s = .failed e s' :=
  bind_eq_failed.trans (or_iff_left fun ⟨_, _, _, hpure⟩ => nomatch hpure)

/-- What an edit answers does not matter where the answer is dropped. -/
theorem discard_map (m : Edit σ ε α) (f : α → β) : discard (f <$> m) = discard m :=
  (comp_map f (fun _ => ()) m).symm

theorem mapError_done {m : Edit σ ε α} {s s' : σ} {a : α} (h : m s = .done a s')
    (rename : ε → δ) : mapError rename m s = .done a s' := by
  simp only [mapError, h]

end Edit

/-! ## Edits of two states -/

variable {τ : Type}

/-- Edits of two states end alike: both are done, with values that correspond, or both fail with the
same error. In either case the states correspond, and neither edit faults. -/
inductive Outcome.Alike (states : σ → τ → Prop) (values : σ → α → β → Prop) :
    Outcome σ ε α → Outcome τ ε β → Prop
  | done {a : α} {b : β} {s : σ} {t : τ} (hstates : states s t) (hvalues : values s a b) :
      Alike states values (.done a s) (.done b t)
  | failed {e : ε} {s : σ} {t : τ} (hstates : states s t) :
      Alike states values (.failed e s) (.failed e t)

namespace Outcome.Alike

variable {states : σ → τ → Prop} {values : σ → α → β → Prop}

/-- Edits that come alike to a point go on alike if the edits behind it do. -/
theorem bind {α' β' : Type} {values' : σ → α' → β' → Prop} {m : Edit σ ε α} {m' : Edit τ ε β}
    {next : α → Edit σ ε α'} {next' : β → Edit τ ε β'} {s : σ} {t : τ}
    (h : (m s).Alike states values (m' t))
    (hnext : ∀ a b s t, states s t → values s a b →
      (next a s).Alike states values' (next' b t)) :
    ((m >>= next) s).Alike states values' ((m' >>= next') t) := by
  show (Edit.bind m next s).Alike states values' (Edit.bind m' next' t)
  unfold Edit.bind
  generalize m s = outcome at h ⊢
  generalize m' t = outcome' at h ⊢
  cases h with
  | done hstates hvalues => exact hnext _ _ _ _ hstates hvalues
  | failed hstates => exact .failed hstates

theorem mapError {m : Edit σ ε α} {m' : Edit τ ε β} {s : σ} {t : τ}
    (h : (m s).Alike states values (m' t)) (rename : ε → δ) :
    (Edit.mapError rename m s).Alike states values (Edit.mapError rename m' t) := by
  unfold Edit.mapError
  generalize m s = outcome at h ⊢
  generalize m' t = outcome' at h ⊢
  cases h with
  | done hstates hvalues => exact .done hstates hvalues
  | failed hstates => exact .failed hstates

theorem read {query : σ → Attempt ε α} {query' : τ → Attempt ε β} {s : σ} {t : τ} {a : α} {b : β}
    (hstates : states s t) (h : query s = .ok a) (h' : query' t = .ok b) :
    (Edit.read query s).Alike states (fun s' a' b' => s' = s ∧ a = a' ∧ b = b')
      (Edit.read query' t) := by
  rw [Edit.read_done h, Edit.read_done h']
  exact .done hstates ⟨rfl, rfl, rfl⟩

theorem imp {states' : σ → τ → Prop} {values' : σ → α → β → Prop} {outcome : Outcome σ ε α}
    {outcome' : Outcome τ ε β} (h : outcome.Alike states values outcome')
    (hstates : ∀ s t, states s t → states' s t) (hvalues : ∀ s a b, values s a b → values' s a b) :
    outcome.Alike states' values' outcome' := by
  cases h with
  | done h₁ h₂ => exact .done (hstates _ _ h₁) (hvalues _ _ _ h₂)
  | failed h₁ => exact .failed (hstates _ _ h₁)

end Outcome.Alike

end Mba
