import IeumChain.Devnet
import IeumChain.Modules

/-!
# The boundaries of the modules

A registered prefix ends with the separator, which no key contains, so a written key gives its
prefix away (`key_cut`). Two modules are apart exactly when their prefixes differ, which the router
does not check (`modules_apart_iff`). The state root hashes every entry behind its lengths and so
determines the state.

A migration runs version by version (`Migrates`). What a failed one leaves behind is the state of
the version it had reached (`apply_migrations_run`).
-/

namespace IeumChain

open Lib

/-! ## Written keys -/

/-- Two lists with the same separator in front of which it does not occur are cut alike. -/
lemma cut_at_first {α : Type} {c : α} {r s : List α} : ∀ {x y : List α}, c ∉ x → c ∉ y →
    x ++ c :: r = y ++ c :: s → x = y ∧ r = s := by
  intro x
  induction x with
  | nil =>
    intro y _ hy h
    cases y with
    | nil => exact ⟨rfl, List.tail_eq_of_cons_eq h⟩
    | cons b y => exact absurd (List.head_eq_of_cons_eq h ▸ List.mem_cons_self) hy
  | cons a x ih =>
    intro y hx hy h
    cases y with
    | nil => exact absurd (List.head_eq_of_cons_eq h ▸ List.mem_cons_self) hx
    | cons b y =>
      obtain ⟨rfl, hrest⟩ := List.cons_eq_cons.mp h
      obtain ⟨rfl, hr⟩ := ih (fun hmem => hx (List.mem_cons_of_mem _ hmem))
        (fun hmem => hy (List.mem_cons_of_mem _ hmem)) hrest
      exact ⟨rfl, hr⟩

/-- A key that `put` writes under a prefix. -/
def Writes (pre written : String) : Prop :=
  ∃ context key value context', ModuleContext.put context pre key value = .ok context' ∧
    written = pre ++ key

lemma put_eq_ok {context context' : ModuleContext} {pre key : String} {value : Bytes} :
    context.put pre key value = .ok context' ↔
      (textBytes key).all ModuleContext.isKeyByte = true ∧
        { context with state := context.state.insert (pre ++ key) value } = context' := by
  rw [ModuleContext.put]
  simp only [bind_eq_ok, ensure_eq_ok, pure_eq_ok, exists_const]

/-- The separator does not stand in a key. -/
lemma separator_notMem {key : String} (h : (textBytes key).all ModuleContext.isKeyByte = true) :
    (47 : UInt8) ∉ textBytes key := by
  intro hmem
  exact absurd (List.all_eq_true.mp h 47 hmem) (by decide)

/-- A prefix that ends with the separator. -/
lemma textBytes_of_endsWith {pre : String} (h : endsWith pre "/" = true) :
    ∃ front, textBytes pre = front ++ [47] := by
  obtain ⟨front, hfront⟩ := List.isSuffixOf_iff_suffix.mp h
  refine ⟨textBytes (String.ofList front), ?_⟩
  have hpre : pre = String.ofList front ++ "/" := by
    apply String.toList_inj.mp
    rw [String.toList_append, String.toList_ofList, hfront]
  rw [hpre, textBytes_append]
  rfl

/-- A written key gives its prefix away. -/
theorem key_cut {pre pre' key key' : String} (hpre : endsWith pre "/" = true)
    (hpre' : endsWith pre' "/" = true) (hkey : (textBytes key).all ModuleContext.isKeyByte = true)
    (hkey' : (textBytes key').all ModuleContext.isKeyByte = true)
    (heq : pre ++ key = pre' ++ key') : pre = pre' ∧ key = key' := by
  obtain ⟨front, hfront⟩ := textBytes_of_endsWith hpre
  obtain ⟨front', hfront'⟩ := textBytes_of_endsWith hpre'
  have hbytes := congrArg textBytes heq
  rw [textBytes_append, textBytes_append, hfront, hfront', List.append_assoc, List.append_assoc]
    at hbytes
  -- from the back, the key ends at the first separator
  have hback := congrArg List.reverse hbytes
  simp only [List.reverse_append, List.reverse_cons, List.nil_append,
    List.append_assoc, List.cons_append] at hback
  obtain ⟨hkeys, hfronts⟩ := cut_at_first
    (fun hmem => separator_notMem hkey (List.mem_reverse.mp hmem))
    (fun hmem => separator_notMem hkey' (List.mem_reverse.mp hmem)) hback
  refine ⟨textBytes_inj.mp ?_, textBytes_inj.mp (List.reverse_injective hkeys)⟩
  rw [hfront, hfront', List.reverse_injective hfronts]

/-- Under different prefixes `put` writes different keys, under one prefix the same ones. -/
lemma writes_apart_iff {pre pre' : String} (hpre : endsWith pre "/" = true)
    (hpre' : endsWith pre' "/" = true) :
    (∀ written, Writes pre written → ¬ Writes pre' written) ↔ pre ≠ pre' := by
  constructor
  · rintro hapart rfl
    have hempty : ModuleContext.put ⟨0, 0, ∅, []⟩ pre "" [] =
        .ok ⟨0, 0, Finmap.insert (pre ++ "") [] ∅, []⟩ := put_eq_ok.mpr ⟨by decide, rfl⟩
    exact hapart (pre ++ "") ⟨_, _, _, _, hempty, rfl⟩ ⟨_, _, _, _, hempty, rfl⟩
  · rintro hne written ⟨context, key, value, _, hput, rfl⟩ ⟨context', key', value', _, hput', heq⟩
    exact hne (key_cut hpre hpre' (put_eq_ok.mp hput).1 (put_eq_ok.mp hput').1 heq).1

/-! ## The state root -/

/-- All keys and values have a length that fits in eight bytes. -/
def ModuleContext.Storable (context : ModuleContext) : Prop :=
  ∀ key value, context.state.lookup key = some value → Fits key ∧ value.length < 2 ^ 64

/-- Entries behind their lengths are cut in one way. -/
lemma flatMap_entryBytes_inj : ∀ {l l' : List (String × Bytes)},
    (∀ entry ∈ l, Fits entry.1 ∧ entry.2.length < 2 ^ 64) →
    (∀ entry ∈ l', Fits entry.1 ∧ entry.2.length < 2 ^ 64) →
    l.flatMap ModuleContext.entryBytes = l'.flatMap ModuleContext.entryBytes → l = l' := by
  intro l
  induction l with
  | nil =>
    intro l' _ _ h
    cases l' with
    | nil => rfl
    | cons entry l' =>
      have hlen := congrArg List.length h
      simp [ModuleContext.entryBytes, pushText] at hlen
      omega
  | cons entry l ih =>
    intro l' hl hl' h
    cases l' with
    | nil =>
      have hlen := congrArg List.length h
      simp [ModuleContext.entryBytes, pushText] at hlen
    | cons entry' l' =>
      obtain ⟨hkey, hvalue⟩ := hl entry List.mem_cons_self
      obtain ⟨hkey', hvalue'⟩ := hl' entry' List.mem_cons_self
      rw [List.flatMap_cons, List.flatMap_cons, ModuleContext.entryBytes,
        ModuleContext.entryBytes] at h
      simp only [List.append_assoc] at h
      obtain ⟨hkeys, hrest⟩ := pushText_append_inj hkey hkey' h
      obtain ⟨hlens, hrest⟩ := append_inj_of_length (by simp) hrest
      obtain ⟨hvalues, hrest⟩ := append_inj_of_length (beBytes_inj hvalue hvalue' hlens) hrest
      rw [Prod.ext hkeys hvalues, ih (fun e he => hl e (List.mem_cons_of_mem _ he))
        (fun e he => hl' e (List.mem_cons_of_mem _ he)) hrest]

/-- A map is determined by its entries in order. -/
lemma sortedEntries_inj {m m' : HashMap String Bytes} (h : sortedEntries m = sortedEntries m') :
    m = m' := by
  refine Finmap.ext_lookup fun key => Option.ext fun value => ?_
  rw [← mem_sortedEntries, ← mem_sortedEntries, h]

/-- What `state_root` hashes. -/
def ModuleContext.stateBytes (context : ModuleContext) : Bytes :=
  (sortedEntries context.state).flatMap ModuleContext.entryBytes

/-- Without a collision of the two hashed texts, equal roots belong to equal states. -/
theorem stateRoot_eq_iff [Primitives] {context context' : ModuleContext} (h : context.Storable)
    (h' : context'.Storable)
    (hfree : CollisionFree fun bytes => bytes = context.stateBytes ∨ bytes = context'.stateBytes) :
    context.stateRoot = context'.stateRoot ↔ context.state = context'.state := by
  constructor
  · intro hroot
    have hbytes : context.stateBytes = context'.stateBytes :=
      hfree.eq_of_hex (.inl rfl) (.inr rfl) hroot
    exact sortedEntries_inj (flatMap_entryBytes_inj
      (fun entry he => h entry.1 entry.2 (mem_sortedEntries.mp he))
      (fun entry he => h' entry.1 entry.2 (mem_sortedEntries.mp he)) hbytes)
  · intro hstate
    rw [ModuleContext.stateRoot, ModuleContext.stateRoot, hstate]

/-! ## The router -/

namespace ModuleRouter

/-- The router after registering modules one after the other. -/
def built (modules : List AppModule) : Result ModuleRouter := modules.foldlM register default

/-- Every module stands under its name and has a prefix that ends with the separator. -/
def WellFormed (router : ModuleRouter) : Prop :=
  ∀ name m, router.modules.lookup name = some m → m.name = name ∧ endsWith m.statePrefix "/" = true

lemma register_eq_ok {router router' : ModuleRouter} {m : AppModule} :
    router.register m = .ok router' ↔ endsWith m.statePrefix "/" = true ∧ m.name ∉ router.modules ∧
      ⟨router.modules.insert m.name m⟩ = router' := by
  rw [register]
  simp only [bind_eq_ok, ensure_eq_ok, pure_eq_ok, exists_const, not_or, Bool.not_eq_false,
    and_assoc]

lemma wellFormed_register {router router' : ModuleRouter} {m : AppModule}
    (h : router.WellFormed) (hregister : router.register m = .ok router') :
    router'.WellFormed := by
  obtain ⟨hpre, -, rfl⟩ := register_eq_ok.mp hregister
  intro name m' hlookup
  rw [HashMap.lookup_insert] at hlookup
  split at hlookup
  case isTrue hname =>
    obtain rfl := Option.some.inj hlookup
    exact ⟨hname.symm, hpre⟩
  case isFalse => exact h name m' hlookup

theorem wellFormed_built {modules : List AppModule} {router : ModuleRouter}
    (h : built modules = .ok router) : router.WellFormed :=
  foldlM_induction WellFormed (fun _ _ _ hwell hregister => wellFormed_register hwell hregister)
    modules default router
    (fun name m hlookup => absurd hlookup (by rw [default, Finmap.lookup_empty]; exact nofun)) h

/-- `execute` changes only what `put` can write under the module's own prefix. -/
def Confined (m : AppModule) : Prop :=
  ∀ payload context written, ¬ Writes m.statePrefix written →
    (m.execute payload context).2.state.lookup written = context.state.lookup written

/-- A call changes nothing under another prefix than that of the module it is for. -/
lemma lookup_dispatch {router : ModuleRouter} (hwell : router.WellFormed)
    (hconfined : ∀ name m, router.modules.lookup name = some m → Confined m) {pre : String}
    (hpre : endsWith pre "/" = true) {name : String}
    (hother : ∀ m, router.modules.lookup name = some m → m.statePrefix ≠ pre)
    (payload : Bytes) (context : ModuleContext) {written : String} (hwritten : Writes pre written) :
    (router.dispatch name payload context).2.state.lookup written =
      context.state.lookup written := by
  rw [dispatch]
  cases hm : router.modules.lookup name with
  | none => rfl
  | some m =>
    dsimp only
    cases m.validate payload context with
    | error e => rfl
    | ok =>
      have hapart := (writes_apart_iff hpre (hwell name m hm).2).mpr (hother m hm).symm
      exact hconfined name m hm payload context written (hapart written hwritten)

/-- The context after a sequence of calls of modules by name. -/
def dispatched (router : ModuleRouter) (context : ModuleContext) (calls : List (String × Bytes)) :
    ModuleContext :=
  calls.foldl (fun context call => (router.dispatch call.1 call.2 context).2) context

/-- In every run of calls to other modules a module's state stays as it was, where its prefix is its
own and the modules write under their prefixes. -/
theorem lookup_dispatched {modules : List AppModule} {router : ModuleRouter}
    (hbuilt : built modules = .ok router)
    (hconfined : ∀ name m, router.modules.lookup name = some m → Confined m) {own : String}
    {m : AppModule} (hm : router.modules.lookup own = some m)
    (hpre : ∀ name m', router.modules.lookup name = some m' → name ≠ own →
      m'.statePrefix ≠ m.statePrefix)
    {written : String} (hwritten : Writes m.statePrefix written) :
    ∀ (calls : List (String × Bytes)) (context : ModuleContext), (∀ call ∈ calls, call.1 ≠ own) →
      (router.dispatched context calls).state.lookup written = context.state.lookup written := by
  have hwell := wellFormed_built hbuilt
  intro calls
  induction calls with
  | nil => exact fun _ _ => rfl
  | cons call calls ih =>
    intro context hcalls
    have hfirst := lookup_dispatch hwell hconfined (hwell own m hm).2
      (fun m' hm' => hpre call.1 m' hm' (hcalls call List.mem_cons_self)) call.2 context hwritten
    rw [← hfirst]
    exact ih _ fun call' hcall' => hcalls call' (List.mem_cons_of_mem _ hcall')

end ModuleRouter

/-- Two registered modules write different keys exactly when their prefixes differ, and the state
root tells states apart. -/
theorem modules_apart_iff [Primitives] (modules : List AppModule) (router : ModuleRouter)
    (hbuilt : ModuleRouter.built modules = .ok router) (name name' : String) (m m' : AppModule)
    (hm : router.modules.lookup name = some m) (hm' : router.modules.lookup name' = some m')
    (context context' : ModuleContext) (hstorable : context.Storable)
    (hstorable' : context'.Storable)
    (hfree : CollisionFree fun bytes => bytes = context.stateBytes ∨ bytes = context'.stateBytes) :
    ((∀ written, Writes m.statePrefix written → ¬ Writes m'.statePrefix written) ∧
      (context.stateRoot = context'.stateRoot ↔ context.state = context'.state)) ↔
    m.statePrefix ≠ m'.statePrefix := by
  have hwell := ModuleRouter.wellFormed_built hbuilt
  rw [writes_apart_iff (hwell name m hm).2 (hwell name' m' hm').2]
  exact and_iff_left (stateRoot_eq_iff hstorable hstorable' hfree)

/-- A module that writes its last payload, as the module `Bank` of the tests does. -/
def lastModule (name statePrefix : String) : AppModule where
  name := name
  statePrefix := statePrefix
  validate payload _ := ensure (payload ≠ []) "빈 payload입니다."
  execute payload context :=
    match context.put statePrefix "last" payload with
    | .ok context => (.ok (), context)
    | .error e => (.error e, context)

/-- The router with two modules. -/
def pairRouter (m m' : AppModule) : ModuleRouter :=
  ⟨Finmap.insert m'.name m' (Finmap.insert m.name m ∅)⟩

/-- Two modules of different names register, whatever their prefixes are. -/
lemma built_pairRouter (m m' : AppModule) (hm : endsWith m.statePrefix "/" = true)
    (hm' : endsWith m'.statePrefix "/" = true) (hne : m'.name ≠ m.name) :
    ModuleRouter.built [m, m'] = .ok (pairRouter m m') ∧
      (pairRouter m m').modules.lookup m.name = some m ∧
      (pairRouter m m').modules.lookup m'.name = some m' := by
  refine ⟨?_, ?_, HashMap.lookup_insert_self _ _ _⟩
  · rw [ModuleRouter.built, foldlM_cons_eq_ok]
    refine ⟨_, ModuleRouter.register_eq_ok.mpr ⟨hm, Finmap.notMem_empty, rfl⟩, ?_⟩
    rw [foldlM_cons_eq_ok]
    refine ⟨_, ModuleRouter.register_eq_ok.mpr ⟨hm', ?_, rfl⟩, rfl⟩
    rw [Finmap.mem_insert, not_or]
    exact ⟨hne, Finmap.notMem_empty⟩
  · rw [pairRouter, HashMap.lookup_insert, if_neg hne.symm, HashMap.lookup_insert_self]

section
attribute [local instance] Devnet.primitives

/-- The context after the bank's first payload. -/
def paidContext : ModuleContext := ⟨1, 1, Finmap.insert "bank/last" [7] ∅, []⟩

/-- The bank and the staking module are apart, and the bank's payload changes the state root. -/
theorem modules_apart_bank :
    ∃ router m m', ModuleRouter.built [lastModule "bank" "bank/", lastModule "staking" "staking/"] =
        .ok router ∧ router.modules.lookup "bank" = some m ∧
      router.modules.lookup "staking" = some m' ∧
      (∀ written, Writes m.statePrefix written → ¬ Writes m'.statePrefix written) ∧
      ((⟨1, 1, ∅, []⟩ : ModuleContext).stateRoot = paidContext.stateRoot ↔
        (∅ : HashMap String Bytes) = paidContext.state) := by
  have hstorable : (⟨1, 1, ∅, []⟩ : ModuleContext).Storable := by
    intro key value hlookup
    exact absurd hlookup (by rw [Finmap.lookup_empty]; exact nofun)
  have hstorable' : paidContext.Storable := by
    intro key value hlookup
    rw [paidContext, HashMap.lookup_insert] at hlookup
    split at hlookup
    case isTrue hkey =>
      obtain rfl := Option.some.inj hlookup
      exact ⟨hkey ▸ by decide, by decide⟩
    case isFalse => exact absurd hlookup (by rw [Finmap.lookup_empty]; exact nofun)
  have hdigests : Sha256.hash (⟨1, 1, ∅, []⟩ : ModuleContext).stateBytes ≠
      Sha256.hash paidContext.stateBytes := by decide +kernel
  have hfree : CollisionFree fun bytes =>
      bytes = (⟨1, 1, ∅, []⟩ : ModuleContext).stateBytes ∨ bytes = paidContext.stateBytes := by
    rintro x y (rfl | rfl) (rfl | rfl) heq
    · rfl
    · exact absurd (congrArg Subtype.val heq) hdigests
    · exact absurd (congrArg Subtype.val heq) hdigests.symm
    · rfl
  obtain ⟨hbuilt, hbank, hstaking⟩ := built_pairRouter (lastModule "bank" "bank/")
    (lastModule "staking" "staking/") (by decide) (by decide) (by decide)
  exact ⟨_, _, _, hbuilt, hbank, hstaking,
    (modules_apart_iff _ _ hbuilt "bank" "staking" _ _ hbank hstaking ⟨1, 1, ∅, []⟩
      paidContext hstorable hstorable' hfree).mpr (by decide)⟩

end

/-- The router takes a second module with the bank's prefix, which writes the bank's keys. -/
theorem modules_share_prefix :
    ∃ router m m', ModuleRouter.built [lastModule "bank" "bank/", lastModule "tips" "bank/"] =
        .ok router ∧ "bank" ≠ "tips" ∧ router.modules.lookup "bank" = some m ∧
      router.modules.lookup "tips" = some m' ∧
      Writes m.statePrefix "bank/last" ∧ Writes m'.statePrefix "bank/last" := by
  have hput : ModuleContext.put ⟨1, 1, ∅, []⟩ "bank/" "last" [7] = .ok paidContext :=
    put_eq_ok.mpr ⟨by decide, rfl⟩
  obtain ⟨hbuilt, hbank, htips⟩ := built_pairRouter (lastModule "bank" "bank/")
    (lastModule "tips" "bank/") (by decide) (by decide) (by decide)
  exact ⟨_, _, _, hbuilt, by decide, hbank, htips, ⟨_, _, _, _, hput, rfl⟩,
    ⟨_, _, _, _, hput, rfl⟩⟩

/-! ## Migrations -/

/-- Successful migrations of a module lead from one version and context to another, each from the
version the one before it reached. -/
inductive Migrates (name : String) (migrations : List StateMigration) :
    UInt32 → ModuleContext → UInt32 → ModuleContext → Prop where
  | done (version : UInt32) (context : ModuleContext) :
      Migrates name migrations version context version context
  | step {item : StateMigration} {context between context' : ModuleContext} {version' : UInt32} :
      item ∈ migrations → item.moduleName = name → item.sourceVersion < item.toVersion →
      item.migrate context = (.ok (), between) →
      Migrates name migrations item.toVersion between version' context' →
      Migrates name migrations item.sourceVersion context version' context'

/-- The versions of a chain of migrations rise. -/
lemma Migrates.le {name : String} {migrations : List StateMigration} {version version' : UInt32}
    {context context' : ModuleContext}
    (h : Migrates name migrations version context version' context') :
    version.toNat ≤ version'.toNat := by
  induction h with
  | done => exact le_rfl
  | step _ _ hrises _ _ ih => exact (UInt32.lt_iff_toNat_lt.mp hrises).le.trans ih

/-- The migration the loop chooses at a version. -/
def nextMigration (name : String) (version : UInt32) (migrations : List StateMigration) :
    Option StateMigration :=
  migrations.find? fun item => item.moduleName = name ∧ item.sourceVersion = version

lemma of_nextMigration {name : String} {version : UInt32} {migrations : List StateMigration}
    {item : StateMigration} (h : nextMigration name version migrations = some item) :
    item.moduleName = name ∧ item.sourceVersion = version := by
  simpa using List.find?_some h

/-- The migrations stop at a version without another one running: the goal is passed, no migration
starts here, or the one that does would not raise the version. -/
def Stops (name : String) (version target : UInt32) (migrations : List StateMigration) : Prop :=
  target < version ∨ version < target ∧
    ∀ item, nextMigration name version migrations = some item → item.toVersion ≤ version

/-- What a run of the migrations leaves: success is a chain from the current version to the goal.
After a failure the context is that of the chain up to the version where it failed, with what a
failing migration did to it. -/
theorem apply_migrations_run (name : String) (current target : UInt32)
    (migrations : List StateMigration) (context : ModuleContext) :
    (∀ version context',
      applyMigrations name current target migrations context = (.ok version, context') →
      version = target ∧ Migrates name migrations current context target context') ∧
    (∀ error context',
      applyMigrations name current target migrations context = (.error error, context') →
      ∃ version reached, Migrates name migrations current context version reached ∧
        (Stops name version target migrations ∧ context' = reached ∨
          ∃ item ∈ migrations, item.moduleName = name ∧ item.sourceVersion = version ∧
            item.migrate reached = (.error error, context'))) := by
  fun_induction applyMigrations name current target migrations context with
  -- no migration starts at this version
  | case1 version context hbelow hnone =>
    refine ⟨nofun, ?_⟩
    rintro error context' ⟨⟩
    refine ⟨version, context, .done version context, .inl ⟨.inr ⟨hbelow, ?_⟩, rfl⟩⟩
    intro item hitem
    rw [nextMigration, hnone] at hitem
    cases hitem
  -- one does, and does not lead up
  | case2 version context hbelow item hitem hlow =>
    refine ⟨nofun, ?_⟩
    rintro error context' ⟨⟩
    refine ⟨version, context, .done version context, .inl ⟨.inr ⟨hbelow, ?_⟩, rfl⟩⟩
    intro item' hitem'
    rw [nextMigration, hitem] at hitem'
    exact Option.some.inj hitem' ▸ hlow
  -- a migration that fails leaves what it has written so far
  | case3 version context hbelow item hitem hrises error after hfails =>
    refine ⟨nofun, ?_⟩
    rintro error' context' ⟨⟩
    obtain ⟨hname, rfl⟩ := of_nextMigration hitem
    exact ⟨_, context, .done _ context,
      .inr ⟨item, List.mem_of_find?_eq_some hitem, hname, rfl, hfails⟩⟩
  | case4 version context hbelow item hitem hrises between hruns ih =>
    obtain ⟨hname, rfl⟩ := of_nextMigration hitem
    have hmem := List.mem_of_find?_eq_some hitem
    have hlt : item.sourceVersion < item.toVersion := UInt32.not_le.mp hrises
    constructor
    · intro version' context' hok
      obtain ⟨rfl, hchain⟩ := ih.1 version' context' hok
      exact ⟨rfl, .step hmem hname hlt hruns hchain⟩
    · intro error context' herror
      obtain ⟨version', reached, hchain, hstop⟩ := ih.2 error context' herror
      exact ⟨version', reached, .step hmem hname hlt hruns hchain, hstop⟩
  -- the version is not the target and not below it
  | case5 version context hnot hne =>
    refine ⟨nofun, ?_⟩
    rintro error context' ⟨⟩
    have hpast : target < version := by
      refine UInt32.lt_iff_toNat_lt.mpr ?_
      have hle := UInt32.le_iff_toNat_le.mp (UInt32.not_lt.mp hnot)
      have hne' : version.toNat ≠ target.toNat := fun h => hne (UInt32.toNat_inj.mp h)
      omega
    exact ⟨version, context, .done version context, .inl ⟨.inl hpast, rfl⟩⟩
  | case6 version context hnot heq =>
    obtain rfl : version = target := not_not.mp heq
    refine ⟨?_, nofun⟩
    rintro version' context' ⟨⟩
    exact ⟨rfl, .done _ context⟩

/-- A migration that writes a mark under the bank's prefix. -/
def marking (source goal : UInt32) : StateMigration where
  moduleName := "bank"
  sourceVersion := source
  toVersion := goal
  migrate context := (.ok (), { context with state := context.state.insert "bank/last" [7] })

/-- From version 1 the bank is taken to version 2, but nothing leads on to version 3: the migration
fails, and the mark of the first one stays. -/
theorem migrations_half_done :
    applyMigrations "bank" 1 3 [marking 1 2] ⟨1, 1, ∅, []⟩ =
        (.error "연속된 상태 migration이 없습니다.", paidContext) ∧
      paidContext ≠ ⟨1, 1, ∅, []⟩ := by
  constructor
  · rw [applyMigrations, if_pos (by decide)]
    show applyMigrations "bank" 2 3 [marking 1 2] paidContext = _
    rw [applyMigrations, if_pos (by decide)]
    rfl
  · intro h
    have hstate := congrArg (fun c : ModuleContext => c.state.lookup "bank/last") h
    exact absurd hstate (by decide)

end IeumChain
