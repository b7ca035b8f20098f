import Mathlib
/-!
# LruLog — a least-recently-used log that is invalidated lazily

Every use of an entry appends a record of it to a log and stamps the entry with it; older records of the entry are left
behind and skipped when they come up.  As long as each entry has a record of its own, popping records off the front
finds every entry, so the loop that makes room stops only when there is room or nothing is left to drop.
-/
namespace LruLog

theorem entries_perm_erase {α : Type} {β : α → Type} [DecidableEq α] {m : AList β} {e : Sigma β} (h : e ∈ m.entries) :
    m.entries.Perm (e :: (m.erase e.1).entries) := by
  obtain ⟨b, l, l', -, hl, herase⟩ := List.exists_of_kerase (List.mem_keys_of_mem h)
  have hmem : (⟨e.1, b⟩ : Sigma β) ∈ m.entries := by
    rw [hl]
    exact List.mem_append_right _ List.mem_cons_self
  have hb : (⟨e.1, b⟩ : Sigma β) = e := m.nodupKeys.eq_of_fst_eq hmem h rfl
  show m.entries.Perm (e :: m.entries.kerase e.1)
  rw [herase, hl, hb]
  exact List.perm_middle

/-- A store of entries from which the entry of a record can be taken. -/
structure Shelf (S ε τ : Type) where
  entries : S → List ε
  /-- The record that is live for an entry. -/
  tag : ε → τ
  charge : ε → Nat
  take : S → τ → Option (ε × S)
  take_some : ∀ {s r e s'}, take s r = some (e, s') → tag e = r ∧ (entries s).Perm (e :: entries s')
  take_none : ∀ {s r}, take s r = none → ∀ e ∈ entries s, tag e ≠ r

/-- A log, a store, its charged bytes and how many entries have been dropped. -/
structure Swept (S τ : Type) where
  log : List τ
  store : S
  bytes : Nat
  dropped : Nat

variable {S ε τ : Type} (sh : Shelf S ε τ) (full : Nat → Bool)

/-- Drops the entries of the oldest live records while the bytes are too many. -/
def sweep : List τ → S → Nat → Nat → Swept S τ
  | [], s, bytes, n => ⟨[], s, bytes, n⟩
  | r :: log, s, bytes, n =>
    if full bytes then match sh.take s r with
      | some (e, s') => sweep log s' (bytes - sh.charge e) (n + 1)
      | none => sweep log s bytes n
    else ⟨r :: log, s, bytes, n⟩

def total (s : S) : Nat := ((sh.entries s).map sh.charge).sum

/-- Each entry has a live record of its own in the log. -/
def Covered (s : S) (log : List τ) : Prop := ((sh.entries s).map sh.tag).Subperm log

variable {sh full}

theorem total_eq {s : S} {l : List ε} (h : (sh.entries s).Perm l) : total sh s = (l.map sh.charge).sum :=
  (h.map _).sum_eq

theorem total_perm {s s' : S} {e : ε} (h : (sh.entries s).Perm (e :: sh.entries s')) :
    total sh s = sh.charge e + total sh s' := by
  rw [total_eq h, List.map_cons, List.sum_cons]
  rfl

theorem Covered.mem {s : S} {log : List τ} (h : Covered sh s log) {e : ε} (he : e ∈ sh.entries s) : sh.tag e ∈ log :=
  h.subset (List.mem_map_of_mem he)

/-- A record that no entry is live for can be dropped. -/
theorem Covered.skip {s : S} {r : τ} {log : List τ} (h : Covered sh s (r :: log))
    (hr : ∀ e ∈ sh.entries s, sh.tag e ≠ r) :
    Covered sh s log := by
  obtain ⟨l, hperm, hsub⟩ := h
  have hmem : r ∉ l := by
    intro hmem
    obtain ⟨e, he, hre⟩ := List.mem_map.1 (hperm.subset hmem)
    exact hr e he hre
  cases hsub with
  | cons _ hsub => exact ⟨l, hperm, hsub⟩
  | cons_cons => exact absurd List.mem_cons_self hmem

/-- An entry can be dropped with its record. -/
theorem Covered.drop {s s' : S} {e : ε} {log : List τ} (h : Covered sh s (sh.tag e :: log))
    (hs : (sh.entries s).Perm (e :: sh.entries s')) : Covered sh s' log := by
  have hcons : (sh.tag e :: (sh.entries s').map sh.tag).Subperm (sh.tag e :: log) := (hs.map sh.tag).subperm_right.1 h
  exact (List.subperm_cons _).1 hcons

/-- An entry can be dropped, its record left behind. -/
theorem Covered.forget {s s' : S} {e : ε} {log : List τ} (h : Covered sh s log)
    (hs : (sh.entries s).Perm (e :: sh.entries s')) : Covered sh s' log :=
  (List.sublist_cons_self _ _).subperm.trans ((hs.map sh.tag).subperm_right.1 h)

/-- An entry comes in with a record of its own. -/
theorem Covered.add {s s' : S} {e : ε} {log : List τ} (h : Covered sh s log)
    (hs : (sh.entries s').Perm (e :: sh.entries s)) : Covered sh s' (log ++ [sh.tag e]) := by
  have hlog : (sh.tag e :: log).Perm (log ++ [sh.tag e]) := (List.perm_append_singleton _ _).symm
  exact (hs.map sh.tag).subperm_right.2 (hlog.subperm_left.1 ((List.subperm_cons _).2 h))

/-- An entry is stamped anew, and the record of the stamp appended. -/
theorem Covered.touch {s s' : S} {e e' : ε} {rest : List ε} {log : List τ} (h : Covered sh s log)
    (hs : (sh.entries s).Perm (e :: rest)) (hs' : (sh.entries s').Perm (e' :: rest)) :
    Covered sh s' (log ++ [sh.tag e']) := by
  have hlog : (sh.tag e' :: log).Perm (log ++ [sh.tag e']) := (List.perm_append_singleton _ _).symm
  have hrest : (rest.map sh.tag).Subperm log :=
    (List.sublist_cons_self _ _).subperm.trans ((hs.map sh.tag).subperm_right.1 h)
  exact (hs'.map sh.tag).subperm_right.2 (hlog.subperm_left.1 ((List.subperm_cons _).2 hrest))

/-- What a sweep leaves of a store and its log. -/
structure Sweeps (sh : Shelf S ε τ) (full : Nat → Bool) (s : S) (log : List τ) (before n : Nat) (r : Swept S τ) :
    Prop where
  covered : Covered sh r.store r.log
  bytes : before = total sh s → r.bytes = total sh r.store
  less : r.bytes ≤ before
  suffix : r.log <:+ log
  kept : ∃ out, (sh.entries s).Perm (out ++ sh.entries r.store) ∧ r.dropped = n + out.length
  room : full r.bytes = false ∨ sh.entries r.store = []

/-- **A sweep of a covered store makes room, or drops everything.** -/
theorem sweep_spec : ∀ (log : List τ) (s : S) (bytes n : Nat), Covered sh s log →
    Sweeps sh full s log bytes n (sweep sh full log s bytes n)
  | [], s, bytes, n, hcov => by
    rw [sweep]
    have hnil : (sh.entries s).map sh.tag = [] := List.subperm_nil.1 hcov
    exact ⟨hcov, id, Nat.le_refl _, List.suffix_refl _, ⟨[], by simp, rfl⟩, .inr (List.map_eq_nil_iff.1 hnil)⟩
  | r :: log, s, bytes, n, hcov => by
    rw [sweep]
    split
    · cases htake : sh.take s r with
      | none =>
        have ih := sweep_spec log s bytes n (hcov.skip (sh.take_none htake))
        exact ⟨ih.covered, ih.bytes, ih.less, ih.suffix.trans (List.suffix_cons _ _), ih.kept, ih.room⟩
      | some p =>
        obtain ⟨e, s'⟩ := p
        obtain ⟨rfl, hperm⟩ := sh.take_some htake
        have ih := sweep_spec log s' (bytes - sh.charge e) (n + 1) (hcov.drop hperm)
        obtain ⟨out, hout, hn⟩ := ih.kept
        refine ⟨ih.covered, fun hbytes => ih.bytes ?_, ih.less.trans (Nat.sub_le _ _),
          ih.suffix.trans (List.suffix_cons _ _), ⟨e :: out, ?_, ?_⟩, ih.room⟩
        · rw [hbytes, total_perm hperm]
          omega
        · exact hperm.trans (hout.cons e)
        · rw [hn, List.length_cons]
          omega
    · rename_i hfull
      exact ⟨hcov, id, Nat.le_refl _, List.suffix_refl _, ⟨[], by simp, rfl⟩, .inl (Bool.eq_false_iff.2 hfull)⟩

/-- What a sweep takes off the front of the log: the records of the entries it drops and no other live ones; the last of
them is a live one, unless the bytes are too many to the end. -/
theorem sweep_pops : ∀ (log : List τ) (s : S) (bytes n : Nat), ∃ popped out,
    log = popped ++ (sweep sh full log s bytes n).log ∧
      (sh.entries s).Perm (out ++ sh.entries (sweep sh full log s bytes n).store) ∧ (∀ e ∈ out, sh.tag e ∈ popped) ∧
      ((popped = [] ∧ (sweep sh full log s bytes n).bytes = bytes) ∨
        (∃ e ∈ out, popped.getLast? = some (sh.tag e)) ∨ full (sweep sh full log s bytes n).bytes = true)
  | [], s, bytes, n => ⟨[], [], rfl, .rfl, by simp, .inl ⟨rfl, rfl⟩⟩
  | r :: log, s, bytes, n => by
    rw [sweep]
    split
    · rename_i hfull
      cases htake : sh.take s r with
      | none =>
        obtain ⟨popped, out, hlog, hout, htags, hlast⟩ := sweep_pops log s bytes n
        refine ⟨r :: popped, out, by
          rw [List.cons_append, ← hlog], hout, fun e he => List.mem_cons_of_mem _ (htags e he), ?_⟩
        rcases hlast with ⟨-, hbytes⟩ | ⟨e, he, hlast⟩ | hstill
        · refine .inr (.inr ?_)
          dsimp only
          rw [hbytes, hfull]
        · exact .inr (.inl ⟨e, he, by rw [List.getLast?_cons, hlast, Option.getD_some]⟩)
        · exact .inr (.inr hstill)
      | some p =>
        obtain ⟨e, s'⟩ := p
        obtain ⟨rfl, hperm⟩ := sh.take_some htake
        obtain ⟨popped, out, hlog, hout, htags, hlast⟩ := sweep_pops log s' (bytes - sh.charge e) (n + 1)
        refine ⟨sh.tag e :: popped, e :: out, by
          rw [List.cons_append, ← hlog], hperm.trans (hout.cons e), fun e' he' => ?_, ?_⟩
        · rcases List.mem_cons.1 he' with rfl | he'
          · exact List.mem_cons_self
          · exact List.mem_cons_of_mem _ (htags e' he')
        · rcases hlast with ⟨rfl, -⟩ | ⟨e', he', hlast⟩ | hstill
          · exact .inr (.inl ⟨e, List.mem_cons_self, rfl⟩)
          · exact .inr (.inl ⟨e', List.mem_cons_of_mem _ he', by rw [List.getLast?_cons, hlast, Option.getD_some]⟩)
          · exact .inr (.inr hstill)
    · exact ⟨[], [], rfl, .rfl, by simp, .inl ⟨rfl, rfl⟩⟩

end LruLog
