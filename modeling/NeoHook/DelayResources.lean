import NeoHook.Delay
import NeoHook.HandlerTables

/-!
# What delay hooks hold on to

The hook on `LdrLoadDll` is installed and the unload notification registered with the first delay
hook, and both go with the last, unless the first registration fails half-way.
-/

namespace NeoHook

namespace DelayState

variable {N : Ntdll} {s s' : DelayState}

/-- What holds between calls: with a delay hook the `LdrLoadDll` hook is installed, without one it is
not. -/
structure Steady (s : DelayState) : Prop where
  ids : s.hooks = s.manager.pending.map (·.id)
  ldr : s.manager.ldrHook = none ↔ s.manager.pending = []
  patched : s.patched = s.manager.ldrHook.isSome
  owned : s.notification.registered = s.notification.stored

/-- Without a delay hook no notification is registered either. -/
structure Held (s : DelayState) : Prop extends Steady s where
  idle : s.manager.pending = [] → s.notification.cookie = 0

/-- The `LdrLoadDll` hook can be installed, and the export if its module is loaded. -/
def Succeeds (c : Code) (module func : String) (detour : ℕ) (view : LoaderView) (os : RegisterOs) :
    Prop :=
  os.ldr.found = true ∧ os.ldr.attach ≠ none ∧ os.ldr.committed = true ∧
    ∀ target, view.resolve (module.map Char.toLower) func = some target →
      ∃ r, (installInModule view c target detour os.int3).1 = .ok r

/-- The first registration succeeds, or no notification is registered for it and the entry of
`LdrLoadDll` is restored if it was hooked; with the last hook the entry is restored, and the
notification unregistered if there is one. -/
def Orderly (N : Ntdll) (s : DelayState) : DelayOp → Prop
  | .register module func detour view os =>
    detour ≠ 0 ∧ module ≠ "" ∧ func ≠ "" ∧ s.hooks = [] →
      Succeeds s.code module func detour view os ∨
        (N.registerExport = false ∨ os.cookie.filter (· ≠ 0) = none) ∧
        (os.ldr.found = true → os.ldr.attach ≠ none → os.ldr.restored = true)
  | .remove hook _ os => s.hooks = [hook] →
    os.restored = true ∧ (s.notification.cookie ≠ 0 → N.unregisterExport = true)
  | .isActive .. | .loaded .. | .unloaded .. => True

/-! ### The notification -/

/-- A registration that nothing disturbs: none if there is one already or the loader refuses. -/
theorem registerUnloadNotification_eq (N : Ntdll) (answer : Option ℕ) (n : Notification) :
    registerUnloadNotification N answer n = n ∨
      n.cookie = 0 ∧ N.registerExport = true ∧ ∃ cookie, answer.filter (· ≠ 0) = some cookie ∧
        registerUnloadNotification N answer n = { n.add cookie with cookie, notified := true } := by
  unfold registerUnloadNotification
  by_cases present : n.cookie ≠ 0
  · left
    simp only [NotifyCall.finish, NotifyCall.access, if_pos present]
  have absent : n.cookie = 0 := not_not.mp present
  cases exported : N.registerExport with
  | false =>
    left
    simp only [NotifyCall.finish, NotifyCall.access, if_neg present, exported, if_true]
  | true =>
    cases given : answer.filter (· ≠ 0) with
    | none =>
      left
      simp only [NotifyCall.finish, NotifyCall.access, if_neg present, exported,
        Bool.true_eq_false, if_false]
    | some cookie =>
      refine .inr ⟨absent, rfl, cookie, rfl, ?_⟩
      have added : (n.add cookie).cookie = 0 := absent
      simp only [NotifyCall.finish, NotifyCall.access, if_neg present, exported, Bool.true_eq_false,
        if_false, if_pos added, ne_eq, not_true_eq_false]

theorem register_notification_stored {n : Notification} {answer : Option ℕ}
    (owned : n.registered = n.stored) :
    (registerUnloadNotification N answer n).registered =
      (registerUnloadNotification N answer n).stored := by
  rcases registerUnloadNotification_eq N answer n with same | ⟨absent, -, cookie, given, eq⟩
  · rw [same]
    exact owned
  · have nonnull : cookie ≠ 0 := by simpa using (Option.filter_eq_some_iff.mp given).2
    have nothing : n.registered = 0 := by
      rw [owned, Notification.stored, if_pos absent]
    rw [eq, Notification.stored, if_neg nonnull]
    change cookie ::ₘ n.registered = {cookie}
    rw [nothing]
    rfl

theorem register_notification_none {n : Notification} {answer : Option ℕ}
    (refused : N.registerExport = false ∨ answer.filter (· ≠ 0) = none) :
    registerUnloadNotification N answer n = n := by
  rcases registerUnloadNotification_eq N answer n with same | ⟨-, exported, cookie, given, -⟩
  · exact same
  · rcases refused with missing | none_
    · exact nomatch missing.symm.trans exported
    · exact nomatch none_.symm.trans given

theorem unregister_notification {n : Notification} (owned : n.registered = n.stored)
    (exported : n.cookie ≠ 0 → N.unregisterExport = true) :
    (unregisterUnloadNotification N n).registered = 0 ∧
      (unregisterUnloadNotification N n).cookie = 0 := by
  unfold unregisterUnloadNotification
  unfold Notification.stored at owned
  by_cases absent : n.cookie = 0
  · rw [if_pos absent] at owned
    simp only [NotifyCall.finish, NotifyCall.access, absent, ne_eq, not_true_eq_false, if_false]
    exact ⟨owned, trivial⟩
  · rw [if_neg absent] at owned
    simp only [NotifyCall.finish, NotifyCall.access, ne_eq, absent, not_false_eq_true, if_true,
      exported absent]
    refine ⟨?_, rfl⟩
    change n.registered.erase n.cookie = 0
    rw [owned]
    exact Multiset.erase_singleton n.cookie

/-! ### The requests -/

theorem eachPending_ids {f : Code → Pending → Code × Pending} (keeps : ∀ c p, (f c p).2.id = p.id)
    (c : Code) (ps : List Pending) : (eachPending f c ps).2.map (·.id) = ps.map (·.id) := by
  induction ps generalizing c with
  | nil => rfl
  | cons p rest ih =>
    simp only [eachPending, List.map_cons, keeps, ih]

theorem forget_id {stale : Int3Hook → Bool} (c : Code) (p : Pending) :
    (p.forget stale c).2.id = p.id := by
  unfold Pending.forget
  split
  · rfl
  · split_ifs <;> rfl

theorem installReady_id {view : LoaderView} {os : ℕ → Int3Os} (c : Code) (p : Pending) :
    (p.installReady view os c).2.id = p.id := by
  unfold Pending.installReady
  split
  · rfl
  · split
    · rfl
    · split <;> rfl

theorem eraseP_ids (ps : List Pending) (id : ℕ) :
    (ps.eraseP fun p => p.id = id).map (·.id) = (ps.map (·.id)).erase id := by
  induction ps with
  | nil => rfl
  | cons p rest ih =>
    by_cases here : p.id = id
    · simp [here]
    · simp [here, ih]

/-- A call that only turns over the requests keeps what is held. -/
theorem Steady.same (h : s.Steady)
    (ids : s'.manager.pending.map (·.id) = s.manager.pending.map (·.id))
    (hooks : s'.hooks = s.hooks) (ldr : s'.manager.ldrHook = s.manager.ldrHook)
    (patched : s'.patched = s.patched) (notification : s'.notification = s.notification) :
    s'.Steady := by
  have nil : s'.manager.pending = [] ↔ s.manager.pending = [] := by
    rw [← List.map_eq_nil_iff (f := (·.id)), ids, List.map_eq_nil_iff]
  refine ⟨?_, ?_, ?_, ?_⟩
  · rw [hooks, ids, h.ids]
  · rw [ldr, nil, h.ldr]
  · rw [patched, ldr, h.patched]
  · rw [notification, h.owned]

theorem Held.same (h : s.Held) (ids : s'.manager.pending.map (·.id) = s.manager.pending.map (·.id))
    (hooks : s'.hooks = s.hooks) (ldr : s'.manager.ldrHook = s.manager.ldrHook)
    (patched : s'.patched = s.patched) (notification : s'.notification = s.notification) :
    s'.Held := by
  refine ⟨h.toSteady.same ids hooks ldr patched notification, fun nil => ?_⟩
  rw [notification]
  exact h.idle (List.map_eq_nil_iff.mp (ids.symm.trans (List.map_eq_nil_iff.mpr nil)))

theorem Held.setPending {f : Code → Pending → Code × Pending} {c : Code} (h : s.Held)
    (keeps : ∀ c p, (f c p).2.id = p.id) :
    (s.setPending (eachPending f c s.manager.pending)).Held :=
  h.same (eachPending_ids keeps c s.manager.pending) rfl rfl rfl rfl

theorem lockManager_ids (view : LoaderView) :
    (s.lockManager view).manager.pending.map (·.id) = s.manager.pending.map (·.id) :=
  eachPending_ids (fun c p => forget_id c p) s.code s.manager.pending

theorem lockManager_nil {view : LoaderView} :
    (s.lockManager view).manager.pending = [] ↔ s.manager.pending = [] := by
  rw [← List.map_eq_nil_iff (f := (·.id)), lockManager_ids, List.map_eq_nil_iff]

theorem lockManager_code_of_nil {view : LoaderView} (nil : s.manager.pending = []) :
    (s.lockManager view).code = s.code := by
  unfold lockManager
  rw [nil]
  rfl

theorem Held.lockManager (h : s.Held) (view : LoaderView) : (s.lockManager view).Held :=
  h.same (lockManager_ids view) rfl rfl rfl rfl

theorem Steady.lockManager (h : s.Steady) (view : LoaderView) : (s.lockManager view).Steady :=
  h.same (lockManager_ids view) rfl rfl rfl rfl

/-! ### Registering -/

/-- A request is added while the `LdrLoadDll` hook is installed. -/
theorem held_add {id : ℕ} {p : Pending} {tramp : ℕ} {nextId : ℕ} {code : Code} (number : p.id = id)
    (ids : s.hooks = s.manager.pending.map (·.id)) (patched : s.patched = true)
    (owned : s.notification.registered = s.notification.stored)
    (ldr : s.manager.ldrHook = some tramp) :
    ({ s with
      code
      manager := ⟨nextId, s.manager.pending ++ [p], s.manager.ldrHook⟩
      hooks := s.hooks ++ [id] } : DelayState).Held := by
  have more : s.manager.pending ++ [p] ≠ [] := List.append_ne_nil_of_right_ne_nil _ (List.cons_ne_nil p [])
  refine ⟨⟨?_, ?_, ?_, owned⟩, fun nil => absurd nil more⟩
  · change s.hooks ++ [id] = (s.manager.pending ++ [p]).map (·.id)
    rw [List.map_append, ← ids, ← number]
    rfl
  · change s.manager.ldrHook = none ↔ s.manager.pending ++ [p] = []
    rw [ldr]
    exact ⟨nofun, fun nil => absurd nil more⟩
  · change s.patched = s.manager.ldrHook.isSome
    rw [patched, ldr]
    rfl

theorem ensureLdrHook_error {os : LdrOs} {e : DelayHookError}
    (failed : s.ensureLdrHook os = (.error e, s')) :
    s.manager.ldrHook = none ∧
      ¬ (os.found = true ∧ os.attach ≠ none ∧ os.committed = true) ∧ s'.manager = s.manager ∧
      s'.hooks = s.hooks ∧ s'.notification = s.notification ∧
      ((os.found = true → os.attach ≠ none → os.restored = true) → s'.patched = s.patched) := by
  unfold ensureLdrHook at failed
  cases present : s.manager.ldrHook with
  | some tramp =>
    rw [present] at failed
    cases failed
  | none =>
    simp only [present, Option.isSome_none, Bool.false_eq_true, if_false] at failed
    by_cases missing : os.found = false
    · rw [if_pos missing] at failed
      cases failed
      exact ⟨rfl, fun all => absurd (missing.symm.trans all.1) Bool.false_ne_true, rfl, rfl, rfl,
        fun _ => rfl⟩
    · rw [if_neg missing] at failed
      cases attached : os.attach with
      | none =>
        rw [attached] at failed
        cases failed
        exact ⟨rfl, fun all => all.2.1 rfl, rfl, rfl, rfl, fun _ => rfl⟩
      | some tramp =>
        rw [attached] at failed
        simp only at failed
        by_cases done : os.committed = true
        · rw [if_pos done] at failed
          cases failed
        · rw [if_neg done] at failed
          cases failed
          refine ⟨rfl, fun all => done all.2.2, rfl, rfl, rfl, fun restores => ?_⟩
          have restored := restores (Bool.not_eq_false _ ▸ missing) (Option.some_ne_none tramp)
          simp only [restored, Bool.not_true, Bool.or_false]

theorem ensureLdrHook_ok {os : LdrOs} (steady : s.Steady)
    (done : s.ensureLdrHook os = (.ok (), s')) :
    (∃ tramp, s'.manager.ldrHook = some tramp) ∧ s'.patched = true ∧
      s'.manager.pending = s.manager.pending ∧ s'.hooks = s.hooks ∧
      s'.notification = s.notification ∧ s'.code = s.code ∧
      (s.manager.ldrHook = none → os.found = true ∧ os.attach ≠ none ∧ os.committed = true) := by
  unfold ensureLdrHook at done
  cases present : s.manager.ldrHook with
  | some tramp =>
    simp only [present, Option.isSome_some, if_true] at done
    cases done
    refine ⟨⟨tramp, present⟩, ?_, rfl, rfl, rfl, rfl, fun eq => by cases eq⟩
    rw [steady.patched, present]
    rfl
  | none =>
    simp only [present, Option.isSome_none, Bool.false_eq_true, if_false] at done
    by_cases missing : os.found = false
    · rw [if_pos missing] at done
      cases done
    · rw [if_neg missing] at done
      cases attached : os.attach with
      | none =>
        rw [attached] at done
        cases done
      | some tramp =>
        rw [attached] at done
        simp only at done
        by_cases committed : os.committed = true
        · rw [if_pos committed] at done
          cases done
          exact ⟨⟨tramp, rfl⟩, rfl, rfl, rfl, rfl, rfl, fun _ =>
            ⟨Bool.not_eq_false _ ▸ missing, Option.some_ne_none tramp, committed⟩⟩
        · rw [if_neg committed] at done
          cases done

theorem retireLdrHook_pending {restored : Bool} :
    (s.retireLdrHook restored).manager.pending = s.manager.pending ∧
      (s.retireLdrHook restored).notification = s.notification := by
  unfold retireLdrHook
  split_ifs <;> exact ⟨rfl, rfl⟩

theorem retireLdrHook_hooks {restored : Bool} {hooks : List ℕ} :
    ({ s.retireLdrHook restored with hooks } : DelayState) =
      ({ s with hooks } : DelayState).retireLdrHook restored := by
  unfold retireLdrHook
  simp only
  split_ifs <;> rfl

/-- The hook on `LdrLoadDll` goes with the last request. -/
theorem retireLdrHook_steady {restored : Bool} {tramp : ℕ} (ldr : s.manager.ldrHook = some tramp)
    (ids : s.hooks = s.manager.pending.map (·.id)) (patched : s.patched = true)
    (owned : s.notification.registered = s.notification.stored)
    (last : s.manager.pending = [] → restored = true) : (s.retireLdrHook restored).Steady := by
  unfold retireLdrHook
  by_cases nil : s.manager.pending = []
  · have restores := last nil
    rw [if_pos (by rw [nil, ldr]; exact ⟨rfl, rfl⟩)]
    refine ⟨ids, ⟨fun _ => nil, fun _ => rfl⟩, ?_, owned⟩
    simp only [restores, Bool.not_true, Bool.and_false, Option.isSome_none]
  · rw [if_neg fun both => nil (List.isEmpty_iff.mp both.1)]
    refine ⟨ids, ?_, ?_, owned⟩
    · rw [ldr]
      exact ⟨nofun, fun empty => absurd empty nil⟩
    · rw [patched, ldr]
      rfl

theorem registerLocked_held {module func : String} {detour : ℕ} {view : LoaderView}
    {os : RegisterOs} (steady : s.Steady)
    (first : s.manager.pending = [] → Succeeds s.code module func detour view os ∨
      s.notification.cookie = 0 ∧
        (os.ldr.found = true → os.ldr.attach ≠ none → os.ldr.restored = true)) :
    (s.registerLocked module func detour view os).2.Held := by
  have locked := steady.lockManager view
  unfold registerLocked
  cases ensured : (s.lockManager view).ensureLdrHook os.ldr with
  | mk result u =>
    cases result with
    | error e =>
      obtain ⟨none_, fails, manager, hooks, notification, patched⟩ := ensureLdrHook_error ensured
      have nil : s.manager.pending = [] := lockManager_nil.mp (locked.ldr.mp none_)
      obtain ⟨idle, restores⟩ :=
        (first nil).resolve_left fun all => fails ⟨all.1, all.2.1, all.2.2.1⟩
      refine ⟨locked.same (by rw [manager]) hooks (by rw [manager]) (patched restores)
        notification, fun _ => ?_⟩
      rw [notification]
      exact idle
    | ok =>
      obtain ⟨⟨tramp, ldr⟩, patched, pending, hooks, notification, code, installed⟩ :=
        ensureLdrHook_ok locked ensured
      have ids : u.hooks = u.manager.pending.map (·.id) := by
        rw [hooks, pending]
        exact locked.ids
      have owned : u.notification.registered = u.notification.stored := by
        rw [notification]
        exact locked.owned
      simp only
      cases resolved : view.resolve (module.map Char.toLower) func with
      | none => exact held_add rfl ids patched owned ldr
      | some target =>
        simp only
        cases result : installInModule view u.code target detour os.int3 with
        | mk outcome c =>
          cases outcome with
          | ok r => exact @held_add { u with code := c } _ _ _ _ _ rfl ids patched owned ldr
          | error e =>
            have alone (nil : u.manager.pending = []) :
                s.notification.cookie = 0 ∧ os.ldr.restored = true := by
              have nil := lockManager_nil.mp (pending.symm.trans nil)
              obtain ⟨idle, restores⟩ := (first nil).resolve_left fun all => by
                obtain ⟨r, succeeds⟩ := all.2.2.2 target resolved
                rw [code, lockManager_code_of_nil nil] at result
                rw [result] at succeeds
                cases succeeds
              obtain ⟨found, attached, -⟩ := installed (locked.ldr.mpr (lockManager_nil.mpr nil))
              exact ⟨idle, restores found attached⟩
            refine ⟨@retireLdrHook_steady { u with
              code := c
              manager := { u.manager with nextId := u.manager.nextId + 1 } } _ _ ldr ids patched owned
              fun nil => (alone nil).2, fun nil => ?_⟩
            rw [retireLdrHook_pending.1] at nil
            rw [retireLdrHook_pending.2]
            change u.notification.cookie = 0
            rw [notification]
            exact (alone nil).1

theorem register_held {module func : String} {detour : ℕ} {view : LoaderView} {os : RegisterOs}
    (h : s.Held) (orderly : Orderly N s (.register module func detour view os)) :
    (s.register N module func detour view os).2.Held := by
  unfold register
  by_cases invalid : detour = 0 ∨ module = "" ∨ func = ""
  · rw [if_pos invalid]
    exact h
  rw [if_neg invalid]
  have valid : detour ≠ 0 ∧ module ≠ "" ∧ func ≠ "" :=
    ⟨fun eq => invalid (.inl eq), fun eq => invalid (.inr (.inl eq)), fun eq => invalid (.inr (.inr eq))⟩
  have alone (nil : s.manager.pending = []) : s.hooks = [] := by
    rw [h.ids, nil]
    rfl
  have steady : ({ s with notification := registerUnloadNotification N os.cookie s.notification } :
      DelayState).Steady :=
    ⟨h.ids, h.ldr, h.patched, register_notification_stored h.owned⟩
  refine registerLocked_held steady fun nil => ?_
  refine (orderly ⟨valid.1, valid.2.1, valid.2.2, alone nil⟩).imp_right fun none_ => ?_
  rw [register_notification_none none_.1]
  exact ⟨h.idle nil, none_.2⟩

/-! ### Removing -/

/-- A request leaves, and the `LdrLoadDll` hook with the last one. -/
theorem removeLocked_steady {id : ℕ} {view : LoaderView} {os : RemoveOs} (h : s.Held)
    (mem : id ∈ s.hooks) (last : s.hooks.erase id = [] → os.restored = true) :
    ({ s.removeLocked id view os with hooks := s.hooks.erase id } : DelayState).Steady ∧
      (s.removeLocked id view os).notification = s.notification := by
  have locked := h.lockManager view
  have some_ : s.manager.pending ≠ [] := by
    intro nil
    rw [h.ids, nil] at mem
    exact absurd mem List.not_mem_nil
  obtain ⟨tramp, ldr⟩ := Option.ne_none_iff_exists'.mp fun none_ => some_ (h.ldr.mp none_)
  have patched : s.patched = true := by
    rw [h.patched, ldr]
    rfl
  have ids : ((s.lockManager view).manager.pending.eraseP fun p => p.id = id).map (·.id) =
      s.hooks.erase id := by
    rw [eraseP_ids, lockManager_ids, ← h.ids]
  unfold removeLocked
  simp only
  refine ⟨?_, retireLdrHook_pending.2⟩
  rw [retireLdrHook_hooks]
  refine retireLdrHook_steady ldr ids.symm patched locked.owned fun nil => last ?_
  rw [← ids]
  exact List.map_eq_nil_iff.mpr nil

theorem remove_held {id : ℕ} {view : LoaderView} {os : RemoveOs} (h : s.Held) (mem : id ∈ s.hooks)
    (orderly : Orderly N s (.remove id view os)) : (s.remove N id view os).Held := by
  have alone : s.hooks.erase id = [] → s.hooks = [id] := by
    intro nil
    have split := List.perm_cons_erase mem
    rw [nil] at split
    exact List.perm_singleton.mp split
  obtain ⟨steady, notification⟩ :
      ({ s.removeLocked id view os with hooks := s.hooks.erase id } : DelayState).Steady ∧ _ :=
    removeLocked_steady h mem fun nil => (orderly (alone nil)).1
  unfold remove
  simp only
  by_cases nil : (s.removeLocked id view os).manager.pending = []
  · rw [if_pos (List.isEmpty_iff.mpr nil)]
    have gone : s.hooks.erase id = [] := by
      have ids := steady.ids
      change s.hooks.erase id = (s.removeLocked id view os).manager.pending.map (·.id) at ids
      rw [ids, nil]
      rfl
    obtain ⟨nothing, null⟩ := unregister_notification steady.owned fun stored =>
      (orderly (alone gone)).2 (notification ▸ stored)
    refine ⟨⟨steady.ids, steady.ldr, steady.patched, ?_⟩, fun _ => null⟩
    change (unregisterUnloadNotification N _).registered = Notification.stored _
    rw [nothing, Notification.stored, if_pos null]
  · rw [if_neg fun empty => nil (List.isEmpty_iff.mp empty)]
    exact ⟨steady, fun empty => absurd empty nil⟩

/-! ### Runs -/

theorem step_held (h : s.Held) (op : DelayOp) (orderly : Orderly N s op) : (s.step N op).Held := by
  cases op with
  | register module func detour view os => exact register_held h orderly
  | isActive hook view => exact h.lockManager view
  | remove hook view os =>
    simp only [step]
    split_ifs with mem
    · exact remove_held h mem orderly
    · exact h
  | loaded view os =>
    simp only [step]
    split_ifs
    · exact (h.lockManager view).setPending fun c p => installReady_id c p
    · exact h
  | unloaded base size busy =>
    simp only [step, onDllNotification]
    split_ifs
    · exact h
    · exact h.same rfl rfl rfl rfl rfl
    · exact h.setPending fun c p => forget_id c p

/-- Without a delay hook the entry of `LdrLoadDll` is untouched and no notification is registered; with
one the `LdrLoadDll` hook is installed.  This holds over every orderly run. -/
theorem delay_resources {s : DelayState} (run : Reachable N (Orderly N) s) :
    (s.hooks = [] → s.manager.ldrHook = none ∧ s.patched = false ∧ s.notification.registered = 0) ∧
      (s.hooks ≠ [] → s.manager.ldrHook ≠ none ∧ s.patched = true) := by
  have h : s.Held := by
    induction run with
    | initial code =>
      exact ⟨⟨rfl, ⟨fun _ => rfl, fun _ => rfl⟩, rfl, rfl⟩, fun _ => rfl⟩
    | step op _ orderly ih => exact step_held ih op orderly
  have nil : s.hooks = [] ↔ s.manager.pending = [] := by
    rw [h.ids, List.map_eq_nil_iff]
  refine ⟨fun none_ => ?_, fun some_ => ?_⟩
  · have ldr := h.ldr.mpr (nil.mp none_)
    refine ⟨ldr, by rw [h.patched, ldr]; rfl, ?_⟩
    rw [h.owned, Notification.stored, if_pos (h.idle (nil.mp none_))]
  · have ldr : s.manager.ldrHook ≠ none := fun none_ => some_ (nil.mpr (h.ldr.mp none_))
    exact ⟨ldr, by rw [h.patched, Option.isSome_iff_ne_none]; exact ldr⟩

/-! ### A first registration that fails -/

/-- Both functions are exported. -/
def sampleNtdll : Ntdll := ⟨true, true⟩

/-- A module at `0x2000` that is loaded or not. -/
def sampleView (loaded : Bool) : LoaderView where
  resolve _ _ := if loaded then some 0x2000 else none
  baseOf _ := if loaded then some 0x2000 else none
  entryByte _ := none

/-- Everything works. -/
def sampleRegisterOs : RegisterOs := ⟨some 7, ⟨true, some 0x20000, true, true⟩, ⟨true, true, true⟩⟩

/-- A registration for an export that carries an INT3 hook already. -/
def failedRegister : DelayState :=
  (initial sampleInt3Process.code).step sampleNtdll
    (.register "kernel32.dll" "Beep" 0x3000 (sampleView true) sampleRegisterOs)

theorem failed_register_leaves_notification :
    Reachable sampleNtdll (fun _ _ => True) failedRegister ∧ failedRegister.hooks = [] ∧
      failedRegister.notification.registered = {7} := by
  exact ⟨.step _ (.initial _) trivial, by decide +kernel, by decide +kernel⟩

/-- A registration for a module that is not loaded. -/
def pendingRegister : DelayState :=
  (initial sampleInt3Process.code).step sampleNtdll
    (.register "winmm.dll" "timeGetTime" 0x3000 (sampleView false) sampleRegisterOs)

theorem pendingRegister_reachable : Reachable sampleNtdll (Orderly sampleNtdll) pendingRegister :=
  .step _ (.initial _) fun _ => .inl ⟨rfl, nofun, rfl, nofun⟩

theorem pendingRegister_holds_ldr_hook :
    pendingRegister.hooks = [1] ∧ pendingRegister.manager.ldrHook ≠ none ∧
      pendingRegister.patched = true := by
  have one : pendingRegister.hooks = [1] := by decide +kernel
  exact ⟨one, (delay_resources pendingRegister_reachable).2 (by rw [one]; decide)⟩

end DelayState

end NeoHook
