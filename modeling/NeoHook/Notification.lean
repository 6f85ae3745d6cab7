import NeoHook.Lib.Pool
import Mathlib.Data.Multiset.Filter
import Mathlib.Data.Multiset.UnionInter
import Mathlib.Algebra.Order.Group.Multiset

/-!
# The unload notification

`register_unload_notification` and `unregister_unload_notification` of `delay.rs` run on any number
of threads without a lock.  Each call is cut at its accesses to the cookie and the flag and at its
calls of the loader; the loader may hand out a cookie again once it is unregistered.  The accesses of
different threads interleave, each one seeing the last write before it; the source orders them by
release stores and acquire loads only, which could delay a store behind a later load.
-/

namespace NeoHook

open Pool

/-- The two atomics of `delay.rs` and the loader's notifications.  The last two fields are history
that nothing reads. -/
structure Notification where
  /-- `NOTIFICATION_COOKIE`. -/
  cookie : ℕ
  /-- `UNLOAD_NOTIFIED`. -/
  notified : Bool
  /-- Cookies of the notifications that are registered with the loader. -/
  registered : Multiset ℕ
  /-- How many notifications were registered under each cookie. -/
  births : ℕ → ℕ
  /-- Registrations that were unregistered, as cookie and number, latest first. -/
  unregistered : List (ℕ × ℕ)

/-- Which functions `ntdll.dll` exports. -/
structure Ntdll where
  registerExport : Bool
  unregisterExport : Bool

/-- Where a call is: the access it makes next. -/
inductive NotifyCall where
  /-- `register_unload_notification`: the first load. -/
  | load
  /-- `LdrRegisterDllNotification`. -/
  | register
  | exchange (cookie : ℕ)
  | storeTrue (cookie : ℕ)
  /-- The load after the flag is set. -/
  | check (cookie : ℕ)
  | storeFalse
  /-- `unregister_unload_notification`: the swap, and the store behind it. -/
  | swap
  | clear (cookie : ℕ)
  /-- `unregister_cookie`. -/
  | unregisterCookie (cookie : ℕ)
  deriving DecidableEq, Repr

namespace Notification

def initial : Notification := ⟨0, false, 0, fun _ => 0, []⟩

/-- The loader registers a notification. -/
def add (s : Notification) (cookie : ℕ) : Notification :=
  { s with
    registered := cookie ::ₘ s.registered
    births := Function.update s.births cookie (s.births cookie + 1) }

/-- The loader unregisters a notification. -/
def remove (s : Notification) (cookie : ℕ) : Notification :=
  { s with
    registered := s.registered.erase cookie
    unregistered := (cookie, s.births cookie) :: s.unregistered }

end Notification

/-- The loader's answer to a registration: none if it fails, else a cookie no registered
notification has. -/
def Notification.Answers (s : Notification) : Option ℕ → Prop
  | none => True
  | some cookie => cookie ≠ 0 ∧ cookie ∉ s.registered

/-- One access; `answer` is the loader's answer if the access is a registration. -/
def NotifyCall.access (N : Ntdll) (answer : Option ℕ) (s : Notification) :
    NotifyCall → Notification × Option NotifyCall
  | .load => (s, if s.cookie ≠ 0 then none else some .register)
  | .register =>
    if N.registerExport = false then (s, none)
    else match answer with
      | none => (s, none)
      | some cookie => (s.add cookie, some (.exchange cookie))
  | .exchange cookie =>
    if s.cookie = 0 then ({ s with cookie := cookie }, some (.storeTrue cookie))
    else (s, some (.unregisterCookie cookie))
  | .storeTrue cookie => ({ s with notified := true }, some (.check cookie))
  | .check cookie => (s, if s.cookie ≠ cookie then some .storeFalse else none)
  | .storeFalse => ({ s with notified := false }, none)
  | .swap => ({ s with cookie := 0 }, some (.clear s.cookie))
  | .clear cookie =>
    ({ s with notified := false }, if cookie ≠ 0 then some (.unregisterCookie cookie) else none)
  | .unregisterCookie cookie => (if N.unregisterExport then s.remove cookie else s, none)

/-- Any number of the two calls. -/
def notifyMachine (N : Ntdll) : Machine Notification NotifyCall (Option ℕ) where
  enter _ p := p = .load ∨ p = .swap
  answers s _ answer := s.Answers answer
  access answer s p := p.access N answer s

/-- The cookie a call has taken over and will unregister or hand on. -/
def NotifyCall.held : NotifyCall → Option ℕ
  | .exchange cookie | .unregisterCookie cookie => some cookie
  | .clear cookie => if cookie = 0 then none else some cookie
  | _ => none

/-- The call will take the flag back if the cookie is gone. -/
def NotifyCall.Clears : NotifyCall → Prop
  | .check _ | .storeFalse | .clear _ => True
  | _ => False

/-- The cookie of a registration is not null. -/
def NotifyCall.Holds : NotifyCall → Prop
  | .exchange cookie | .storeTrue cookie | .check cookie => cookie ≠ 0
  | _ => True

namespace Notification

/-- The stored cookie. -/
def stored (s : Notification) : Multiset ℕ := if s.cookie = 0 then 0 else {s.cookie}

/-- Every registered notification has one owner: the stored cookie or a call. -/
structure Owned (N : Ntdll) (s : Notification) (calls : Multiset NotifyCall) : Prop where
  owners : s.registered = s.stored + calls.filterMap NotifyCall.held
  nodup : s.registered.Nodup
  exported : ∀ c ∈ s.registered, c ≠ 0 ∧ N.registerExport
  holds : ∀ p ∈ calls, p.Holds

/-- Each registration made so far was unregistered once or is still registered. -/
structure Accounted (s : Notification) : Prop where
  nodup : s.unregistered.Nodup
  le : ∀ r ∈ s.unregistered, r.2 ≤ s.births r.1
  registered : ∀ c ∈ s.registered, (c, s.births c) ∉ s.unregistered
  made : ∀ c n, 0 < n → n ≤ s.births c →
    (c, n) ∈ s.unregistered ∨ n = s.births c ∧ c ∈ s.registered

/-- The flag is right, or a call is about to take it back. -/
def Flagged (s : Notification) (calls : Multiset NotifyCall) : Prop :=
  s.notified → s.cookie = 0 → ∃ p ∈ calls, p.Clears

structure Inv (N : Ntdll) (s : Notification) (calls : Multiset NotifyCall) : Prop where
  owned : Owned N s calls
  accounted : Accounted s
  flagged : Flagged s calls

/-! ### Bookkeeping -/

theorem Accounted.cells {s : Notification} (h : s.Accounted) (cookie : ℕ) (notified : Bool) :
    { s with cookie, notified }.Accounted :=
  ⟨h.nodup, h.le, h.registered, h.made⟩

theorem Accounted.add {s : Notification} {c : ℕ} (h : s.Accounted) (fresh : c ∉ s.registered) :
    (s.add c).Accounted where
  nodup := h.nodup
  le r mem := by
    change r.2 ≤ Function.update s.births c (s.births c + 1) r.1
    have := h.le r mem
    by_cases same : r.1 = c
    · rw [same, Function.update_self]
      rw [same] at this
      omega
    · rw [Function.update_of_ne same]
      exact this
  registered c' mem := by
    change (c', Function.update s.births c (s.births c + 1) c') ∉ s.unregistered
    by_cases same : c' = c
    · rw [same, Function.update_self]
      intro mem
      have := h.le _ mem
      simp only at this
      omega
    · rw [Function.update_of_ne same]
      exact h.registered c' ((Multiset.mem_cons.mp mem).resolve_left same)
  made c' n pos le := by
    change (c', n) ∈ s.unregistered ∨
      n = Function.update s.births c (s.births c + 1) c' ∧ c' ∈ c ::ₘ s.registered
    change n ≤ Function.update s.births c (s.births c + 1) c' at le
    by_cases same : c' = c
    · subst same
      rw [Function.update_self] at le ⊢
      rcases Nat.lt_or_ge (s.births c') n with last | earlier
      · exact .inr ⟨by omega, Multiset.mem_cons_self _ _⟩
      · exact .inl ((h.made c' n pos earlier).resolve_right fun live => fresh live.2)
    · rw [Function.update_of_ne same] at le ⊢
      exact (h.made c' n pos le).imp_right fun live => ⟨live.1, Multiset.mem_cons_of_mem live.2⟩

theorem Accounted.remove {s : Notification} {c : ℕ} (h : s.Accounted) (mem : c ∈ s.registered)
    (nodup : s.registered.Nodup) : (s.remove c).Accounted where
  nodup := List.nodup_cons.mpr ⟨h.registered c mem, h.nodup⟩
  le r mem := by
    rcases List.mem_cons.mp mem with rfl | mem
    · exact le_rfl
    · exact h.le r mem
  registered c' mem' := by
    have mem' := (Multiset.Nodup.mem_erase_iff nodup).mp mem'
    refine fun gone => ?_
    rcases List.mem_cons.mp gone with same | gone
    · exact mem'.1 (congrArg Prod.fst same)
    · exact h.registered c' mem'.2 gone
  made c' n pos le := by
    rcases h.made c' n pos le with gone | ⟨rfl, live⟩
    · exact .inl (List.mem_cons_of_mem _ gone)
    · by_cases same : c' = c
      · rw [same]
        exact .inl List.mem_cons_self
      · exact .inr ⟨rfl, (Multiset.Nodup.mem_erase_iff nodup).mpr ⟨same, live⟩⟩

theorem filterMap_held_cons (p : NotifyCall) (rest : Multiset NotifyCall) :
    (p ::ₘ rest).filterMap NotifyCall.held = left p.held + rest.filterMap NotifyCall.held := by
  cases held : p.held with
  | none => rw [Multiset.filterMap_cons_none _ _ held, left_none, zero_add]
  | some c => rw [Multiset.filterMap_cons_some _ _ _ held, left_some_add]

theorem filterMap_held_left (next : Option NotifyCall) (rest : Multiset NotifyCall) :
    (left next + rest).filterMap NotifyCall.held =
      left (next.bind NotifyCall.held) + rest.filterMap NotifyCall.held := by
  cases next with
  | none => rw [left_none, zero_add, Option.bind_none, left_none, zero_add]
  | some p => rw [left_some_add, filterMap_held_cons, Option.bind_some]

/-- What a call holds is registered. -/
theorem Owned.mem_of_held {N : Ntdll} {s : Notification} {p : NotifyCall}
    {rest : Multiset NotifyCall} {c : ℕ} (h : Owned N s (p ::ₘ rest)) (held : p.held = some c) :
    c ∈ s.registered := by
  rw [h.owners, filterMap_held_cons, held, left_some_add]
  exact Multiset.mem_add.mpr (.inr (Multiset.mem_cons_self c _))

/-- A step that leaves the registrations alone moves a cookie at most between the cell and the
call. -/
theorem Owned.hand {N : Ntdll} {s s' : Notification} {p : NotifyCall} {next : Option NotifyCall}
    {rest : Multiset NotifyCall} (h : Owned N s (p ::ₘ rest)) (same : s'.registered = s.registered)
    (moved : s'.stored + left (next.bind NotifyCall.held) = s.stored + left p.held)
    (holds : ∀ q, next = some q → q.Holds) : Owned N s' (left next + rest) where
  owners := by
    rw [same, h.owners, filterMap_held_cons, filterMap_held_left, ← add_assoc, ← add_assoc, moved]
  nodup := same ▸ h.nodup
  exported := same ▸ h.exported
  holds q mem := by
    rcases Multiset.mem_add.mp mem with mem | mem
    · exact holds q (mem_left.mp mem)
    · exact h.holds q (Multiset.mem_cons_of_mem mem)

theorem Owned.add {N : Ntdll} {s : Notification} {p : NotifyCall} {rest : Multiset NotifyCall}
    {c : ℕ} (h : Owned N s (p ::ₘ rest)) (nothing : p.held = none) (exports : N.registerExport)
    (nonnull : c ≠ 0) (fresh : c ∉ s.registered) :
    Owned N (s.add c) (left (some (.exchange c)) + rest) where
  owners := by
    change c ::ₘ s.registered = s.stored + _
    rw [h.owners, filterMap_held_cons, nothing, left_none, zero_add, filterMap_held_left]
    change _ = s.stored + (left (some c) + _)
    rw [left_some_add, Multiset.add_cons]
  nodup := Multiset.nodup_cons.mpr ⟨fresh, h.nodup⟩
  exported c' mem := by
    rcases Multiset.mem_cons.mp mem with rfl | mem
    · exact ⟨nonnull, exports⟩
    · exact h.exported c' mem
  holds q mem := by
    rw [left_some_add] at mem
    rcases Multiset.mem_cons.mp mem with rfl | mem
    · exact nonnull
    · exact h.holds q (Multiset.mem_cons_of_mem mem)

theorem Owned.remove {N : Ntdll} {s : Notification} {rest : Multiset NotifyCall} {c : ℕ}
    (h : Owned N s (.unregisterCookie c ::ₘ rest)) : Owned N (s.remove c) rest where
  owners := by
    change s.registered.erase c = s.stored + _
    rw [h.owners, filterMap_held_cons]
    change (s.stored + (left (some c) + _)).erase c = _
    rw [left_some_add, Multiset.add_cons, Multiset.erase_cons_head]
  nodup := h.nodup.erase c
  exported c' mem := h.exported c' (Multiset.mem_of_mem_erase mem)
  holds q mem := h.holds q (Multiset.mem_cons_of_mem mem)

/-! ### The flag -/

/-- A step keeps the flag's rule if it neither sets the flag nor takes the cookie, and its call
still clears the flag if it did. -/
theorem Flagged.keep {s s' : Notification} {p : NotifyCall} {next : Option NotifyCall}
    {rest : Multiset NotifyCall} (h : Flagged s (p ::ₘ rest))
    (flag : s'.notified → s.notified) (cookie : s'.cookie = 0 → s.cookie = 0)
    (clears : s'.notified → s'.cookie = 0 → p.Clears → ∃ q, next = some q ∧ q.Clears) :
    Flagged s' (left next + rest) := by
  intro set gone
  obtain ⟨q, mem, takes⟩ := h (flag set) (cookie gone)
  rcases Multiset.mem_cons.mp mem with rfl | mem
  · obtain ⟨q, rfl, takes⟩ := clears set gone takes
    exact ⟨q, Multiset.mem_add.mpr (.inl (mem_left.mpr rfl)), takes⟩
  · exact ⟨q, Multiset.mem_add.mpr (.inr mem), takes⟩

/-- The call that steps clears the flag later. -/
theorem Flagged.of_clears {s : Notification} {q : NotifyCall} {rest : Multiset NotifyCall}
    (clears : q.Clears) : Flagged s (left (some q) + rest) := by
  rw [left_some_add]
  exact fun _ _ => ⟨q, Multiset.mem_cons_self q rest, clears⟩

theorem Flagged.of_unset {s : Notification} {calls : Multiset NotifyCall}
    (unset : s.notified = false) : Flagged s calls := by
  intro set
  rw [unset] at set
  cases set

/-! ### Steps and runs -/

theorem Inv.step {N : Ntdll} (exports : N.registerExport → N.unregisterExport)
    {s s' : Notification} {p : NotifyCall} {next : Option NotifyCall} {rest : Multiset NotifyCall}
    (inv : Inv N s (p ::ₘ rest)) {answer : Option ℕ} (answers : s.Answers answer)
    (h : p.access N answer s = (s', next)) : Inv N s' (left next + rest) := by
  have mine := inv.owned.holds p (Multiset.mem_cons_self p rest)
  cases p with
  | load =>
    obtain ⟨rfl, rfl⟩ := Prod.mk.inj h
    refine ⟨inv.owned.hand rfl ?_ ?_, inv.accounted, inv.flagged.keep id id nofun⟩
    · split_ifs <;> rfl
    · intro q eq
      split_ifs at eq
      rw [← Option.some.inj eq]
      trivial
  | register =>
    simp only [NotifyCall.access] at h
    split_ifs at h with missing
    · obtain ⟨rfl, rfl⟩ := Prod.mk.inj h
      exact ⟨inv.owned.hand rfl rfl nofun, inv.accounted, inv.flagged.keep id id nofun⟩
    · cases answer with
      | none =>
        obtain ⟨rfl, rfl⟩ := Prod.mk.inj h
        exact ⟨inv.owned.hand rfl rfl nofun, inv.accounted, inv.flagged.keep id id nofun⟩
      | some c =>
        obtain ⟨rfl, rfl⟩ := Prod.mk.inj h
        obtain ⟨nonnull, fresh⟩ := answers
        exact ⟨inv.owned.add rfl (by simpa using missing) nonnull fresh, inv.accounted.add fresh,
          inv.flagged.keep id id nofun⟩
  | exchange c =>
    simp only [NotifyCall.access] at h
    split_ifs at h with empty
    · obtain ⟨rfl, rfl⟩ := Prod.mk.inj h
      refine ⟨inv.owned.hand rfl ?_ ?_, inv.accounted.cells _ _,
        inv.flagged.keep id (fun eq => absurd eq mine) nofun⟩
      · simp only [stored, empty, if_neg mine, if_true]
        rfl
      · rintro q ⟨⟩
        exact mine
    · obtain ⟨rfl, rfl⟩ := Prod.mk.inj h
      refine ⟨inv.owned.hand rfl rfl ?_, inv.accounted, inv.flagged.keep id id nofun⟩
      rintro q ⟨⟩
      trivial
  | storeTrue c =>
    obtain ⟨rfl, rfl⟩ := Prod.mk.inj h
    refine ⟨inv.owned.hand rfl rfl ?_, inv.accounted.cells _ _, .of_clears trivial⟩
    rintro q ⟨⟩
    exact mine
  | check c =>
    obtain ⟨rfl, rfl⟩ := Prod.mk.inj h
    refine ⟨inv.owned.hand rfl ?_ ?_, inv.accounted, inv.flagged.keep id id ?_⟩
    · split_ifs <;> rfl
    · intro q eq
      split_ifs at eq
      rw [← Option.some.inj eq]
      trivial
    · intro _ gone _
      -- the null cookie differs from the one this call registered
      have differs : s.cookie ≠ c := by
        rw [gone]
        exact (mine ·.symm)
      exact ⟨.storeFalse, if_pos differs, trivial⟩
  | storeFalse =>
    obtain ⟨rfl, rfl⟩ := Prod.mk.inj h
    exact ⟨inv.owned.hand rfl rfl nofun, inv.accounted.cells _ _, .of_unset rfl⟩
  | swap =>
    obtain ⟨rfl, rfl⟩ := Prod.mk.inj h
    refine ⟨inv.owned.hand rfl ?_ ?_, inv.accounted.cells _ _, .of_clears trivial⟩
    · simp only [stored, if_true, zero_add, Option.bind_some, NotifyCall.held]
      split_ifs <;> rfl
    · rintro q ⟨⟩
      trivial
  | clear c =>
    obtain ⟨rfl, rfl⟩ := Prod.mk.inj h
    refine ⟨inv.owned.hand rfl ?_ ?_, inv.accounted.cells _ _, .of_unset rfl⟩
    · simp only [stored, NotifyCall.held]
      split_ifs <;> first | rfl | contradiction
    · intro q eq
      split_ifs at eq
      rw [← Option.some.inj eq]
      trivial
  | unregisterCookie c =>
    obtain ⟨rfl, rfl⟩ := Prod.mk.inj h
    have registered := inv.owned.mem_of_held (c := c) rfl
    rw [if_pos (exports (inv.owned.exported c registered).2)]
    rw [left_none, zero_add]
    refine ⟨inv.owned.remove, inv.accounted.remove registered inv.owned.nodup, ?_⟩
    intro set gone
    obtain ⟨q, mem, takes⟩ := inv.flagged set gone
    rcases Multiset.mem_cons.mp mem with rfl | mem
    · exact absurd takes id
    · exact ⟨q, mem, takes⟩

theorem Inv.initial (N : Ntdll) : Inv N initial 0 where
  owned := ⟨rfl, Multiset.nodup_zero, fun c mem => absurd mem (Multiset.notMem_zero c),
    fun p mem => absurd mem (Multiset.notMem_zero p)⟩
  accounted := ⟨List.nodup_nil, fun _ mem => absurd mem List.not_mem_nil,
    fun c mem => absurd mem (Multiset.notMem_zero c), fun c n pos le => by
      change n ≤ 0 at le
      omega⟩
  flagged := .of_unset rfl

theorem Inv.enter {N : Ntdll} {s : Notification} {calls : Multiset NotifyCall} {p : NotifyCall}
    (inv : Inv N s calls) (begins : (notifyMachine N).enter s p) : Inv N s (p ::ₘ calls) := by
  have nothing : p.held = none ∧ p.Holds := by
    rcases begins with rfl | rfl <;> exact ⟨rfl, trivial⟩
  refine ⟨⟨?_, inv.owned.nodup, inv.owned.exported, ?_⟩, inv.accounted, ?_⟩
  · rw [inv.owned.owners, filterMap_held_cons, nothing.1, left_none, zero_add]
  · intro q mem
    rcases Multiset.mem_cons.mp mem with rfl | mem
    · exact nothing.2
    · exact inv.owned.holds q mem
  · intro set gone
    obtain ⟨q, mem, takes⟩ := inv.flagged set gone
    exact ⟨q, Multiset.mem_cons_of_mem mem, takes⟩

/-- Once all calls have returned, the flag is set only if the stored cookie is registered, every
other registration was unregistered, and none was unregistered twice. -/
theorem notification_settles {N : Ntdll} (exports : N.registerExport → N.unregisterExport)
    {s : Notification}
    (run : Reachable (notifyMachine N).program (fun _ _ _ => True) initial s 0) :
    (s.notified → s.cookie ≠ 0 ∧ s.cookie ∈ s.registered) ∧
      (∀ c n, 0 < n → n ≤ s.births c →
        (c, n) ∈ s.unregistered ∨ c = s.cookie ∧ n = s.births c ∧ c ∈ s.registered) ∧
      s.unregistered.Nodup := by
  have keeps : ∀ {s s' p rest next}, Inv N s (p ::ₘ rest) → True →
      (notifyMachine N).program.step s p s' next → Inv N s' (left next + rest) :=
    fun inv _ ⟨_, answers, moves⟩ => inv.step exports answers moves
  have inv : Inv N s 0 := run.invariant (Inv.initial N) Inv.enter keeps
  have owners : s.registered = s.stored := by
    rw [inv.owned.owners, Multiset.filterMap_zero, add_zero]
  refine ⟨fun set => ?_, fun c n pos le => ?_, inv.accounted.nodup⟩
  · have stored : s.cookie ≠ 0 := by
      intro gone
      obtain ⟨p, mem, -⟩ := inv.flagged set gone
      exact absurd mem (Multiset.notMem_zero p)
    refine ⟨stored, ?_⟩
    rw [owners, Notification.stored, if_neg stored]
    exact Multiset.mem_singleton_self _
  · refine (inv.accounted.made c n pos le).imp_right fun ⟨last, live⟩ => ⟨?_, last, live⟩
    rw [owners, Notification.stored] at live
    split_ifs at live
    · exact absurd live (Multiset.notMem_zero c)
    · exact Multiset.mem_singleton.mp live

instance (s : Notification) (answer : Option ℕ) : Decidable (s.Answers answer) :=
  match answer with
  | none => inferInstanceAs (Decidable True)
  | some cookie => inferInstanceAs (Decidable (cookie ≠ 0 ∧ cookie ∉ s.registered))

instance (N : Ntdll) (s : Notification) (p : NotifyCall) : Decidable ((notifyMachine N).enter s p) :=
  inferInstanceAs (Decidable (_ ∨ _))

instance (N : Ntdll) (s : Notification) (p : NotifyCall) (answer : Option ℕ) :
    Decidable ((notifyMachine N).answers s p answer) :=
  inferInstanceAs (Decidable (s.Answers answer))

/-- Two calls register at once: the second exchange fails and its cookie is withdrawn. -/
def race : List (Pool.Move NotifyCall (Option ℕ)) :=
  [.enter .load, .enter .load, .step 0 none, .step 1 none, .step 0 (some 7), .step 1 (some 8),
    .step 1 none, .step 1 none, .step 0 none, .step 0 none, .step 0 none]

theorem race_settles :
    let s := ((notifyMachine ⟨true, true⟩).run (initial, []) race).1
    s.notified ∧ s.unregistered = [(8, 1)] ∧ s.cookie ∈ s.registered := by
  have admits : (notifyMachine ⟨true, true⟩).AdmitsAll (fun _ _ _ => True) (initial, []) race := by
    decide
  have run := Machine.reachable_schedule admits
  exact ⟨by decide, by decide, ((notification_settles (fun _ => rfl) run).1 (by decide)).2⟩

end Notification

end NeoHook
