import Mathlib.Data.List.Basic

/-! The command codes, the macros and their sequences, and where a handler of
`table_` is while it runs. Names of program points say what the next step does. -/

namespace GramsTof.Dispatch

/-- `unknown` also stands for the numbers that are no constant of the enumeration. -/
inductive TOFCommandCode where
  | startDaq
  | stopDaq
  | resetDaq
  | reconnectNetwork
  | initSystem
  | makeBiasCalibTable
  | makeSimpleBiasSetTable
  | makeSimpleChannelMap
  | makeSimpleDiscSetTable
  | readTemperatureSensors
  | acquireThresholdCalibration
  | acquireTdcCalibration
  | acquireQdcCalibration
  | acquireSipmData
  | acquireThresholdCalibrationBn
  | acquireThresholdCalibrationD
  | setFemPowerOff
  | setFemPowerOn
  | startAsicTempRecord
  | stopAsicTempRecord
  | readTemperatureSensorsSingle
  | sendPulseTrain
  | processThresholdCalibration
  | processTdcCalibration
  | processQdcCalibration
  | convertRawToRaw
  | convertRawToSingles
  | convertStg1ToStg2
  | processQaCoin
  | processQaIridium
  | monitorDataStream
  | loggerDataStream
  | macroThermalCalib
  | macroAutoRunSequence
  | macroStage0PrebreakdownBn
  | macroStage1UnbiasedTdc
  | macroStage2PrebreakdownQdc
  | macroStage3OperationalD
  | macroAutoRunCycle
  | ack
  | callback
  | status
  | dummyTest
  | heartBeat
  | unknown
  deriving DecidableEq, Repr

abbrev CommandArgs := List ℕ

abbrev Pid := ℕ

/-- A command whose body is followed by the status callback of `executeSimpleCommand`. -/
inductive Simple (π : Type) where
  | body (pc : π)
  | report (success : Bool)
  deriving DecidableEq, Repr

/-- The body of a command of `executeSimpleCommand` that is not `START_DAQ`, `STOP_DAQ` or
`RESET_DAQ`. -/
inductive BodyPc where
  | run
  /-- At the head of the loop of `calibrateAllAsics`; `left` are the files left. -/
  | asics (left nWorkers maxWorkers : ℕ)
  /-- At `while(nWorkers >= maxWorkers)`. -/
  | limit (left nWorkers maxWorkers : ℕ)
  /-- At `while(nWorkers > 0)`. -/
  | drain (nWorkers : ℕ)
  /-- After `calibrateAllAsics`. -/
  | finish
  deriving DecidableEq, Repr

inductive StartPc where
  /-- At `lock_guard` and the test of `daqRunning_`. -/
  | lock
  | join
  | initializeDaq
  deriving DecidableEq, Repr

inductive StopPc where
  /-- At `macroLoopRunning_ = false`. -/
  | cancel
  | fork
  | register (stopPid : Pid)
  | interrupt (stopPid : Option Pid)
  /-- At `getDAQ().stop()` and the join. -/
  | join
  | markStopped
  deriving DecidableEq, Repr

/-- The argument is `wasMacroRunning`. -/
inductive ResetPc where
  | save
  | stop (was : Bool) (pc : Simple StopPc)
  | start (was : Bool) (pc : Simple StartPc)
  | restore (was : Bool)
  deriving DecidableEq, Repr

/-- The handler of a macro command. -/
inductive AdmitPc where
  /-- At `if (macroLoopRunning_)`. -/
  | test
  | reject
  /-- At the store to `sipmDataAcquisitionTime_`. -/
  | configure
  | join
  /-- At `macroLoopRunning_ = true`. -/
  | arm
  | spawn
  deriving DecidableEq, Repr

inductive BackgroundPc where
  | fork
  | register (pid : Pid)
  deriving DecidableEq, Repr

inductive PulsePc where
  /-- At `::access` of `ad3_ctrl`. -/
  | access
  | run
  | report (status : ℕ) (result : Bool)
  deriving DecidableEq, Repr

/-- A handler under execution. -/
inductive Call where
  | startDaq (pc : Simple StartPc)
  | stopDaq (pc : Simple StopPc)
  | resetDaq (pc : Simple ResetPc)
  /-- The other commands of `executeSimpleCommand`. -/
  | simple (code : TOFCommandCode) (pc : Simple BodyPc)
  /-- The commands of `executeManagedBackground`. -/
  | background (code : TOFCommandCode) (pc : BackgroundPc)
  | sendPulseTrain (pc : PulsePc)
  | startAsicTempRecord
  | stopAsicTempRecord (joining : Bool)
  | macroCommand (code : TOFCommandCode) (argv : CommandArgs) (pc : AdmitPc)
  | heartBeat
  deriving DecidableEq, Repr

/-- What a macro handler gives its thread; `cycles` is set for `executeMacroLoop`. -/
structure Program where
  code : TOFCommandCode
  vaultSubDir : String
  sequence : List TOFCommandCode
  cycles : Option ℕ
  deriving DecidableEq, Repr

/-- What a macro handler passes to `executeMacroSequence` or `executeMacroLoop`. -/
structure MacroSequence where
  vaultSubDir : String
  steps : List TOFCommandCode
  deriving DecidableEq, Repr

namespace TOFCommandCode

def vaultSubDir : TOFCommandCode → String
  | macroThermalCalib => "thermal_calib"
  | macroAutoRunSequence => "auto_run"
  | macroStage0PrebreakdownBn => "stage0_prebreakdown_bn"
  | macroStage1UnbiasedTdc => "stage1_unbiased_tdc"
  | macroStage2PrebreakdownQdc => "stage2_prebreakdown_qdc"
  | macroStage3OperationalD => "stage3_operational_d"
  | macroAutoRunCycle => "auto_run_cycle"
  | _ => ""

/-- The steps of the seven macro handlers. -/
def macroSteps : TOFCommandCode → List TOFCommandCode
  | macroThermalCalib =>
    [readTemperatureSensors, acquireThresholdCalibrationBn, acquireThresholdCalibrationD,
      processThresholdCalibration, makeSimpleDiscSetTable, acquireTdcCalibration,
      acquireQdcCalibration, processTdcCalibration, processQdcCalibration]
  | macroAutoRunSequence =>
    [resetDaq, readTemperatureSensors, acquireThresholdCalibrationBn, processThresholdCalibration,
      makeSimpleDiscSetTable, acquireSipmData, convertRawToRaw, convertStg1ToStg2, processQaCoin,
      processQaIridium]
  | macroStage0PrebreakdownBn =>
    [resetDaq, readTemperatureSensors, acquireThresholdCalibrationBn, processThresholdCalibration,
      makeSimpleDiscSetTable, readTemperatureSensorsSingle]
  | macroStage1UnbiasedTdc =>
    [resetDaq, readTemperatureSensorsSingle, acquireTdcCalibration, processTdcCalibration,
      readTemperatureSensorsSingle]
  | macroStage2PrebreakdownQdc =>
    [resetDaq, readTemperatureSensorsSingle, acquireQdcCalibration, processQdcCalibration,
      readTemperatureSensorsSingle]
  | macroStage3OperationalD =>
    [resetDaq, readTemperatureSensorsSingle, acquireThresholdCalibrationD, startAsicTempRecord,
      acquireSipmData, sendPulseTrain, stopAsicTempRecord, convertRawToRaw, convertStg1ToStg2,
      processQaIridium, readTemperatureSensorsSingle]
  | macroAutoRunCycle =>
    [resetDaq, readTemperatureSensors, acquireThresholdCalibrationD, acquireSipmData,
      convertRawToRaw, convertStg1ToStg2, processQaCoin, processQaIridium]
  | _ => []

/-- The sequences of the seven macro handlers. -/
def macroSequence (code : TOFCommandCode) : MacroSequence := ⟨code.vaultSubDir, code.macroSteps⟩

/-- The commands that run `calibrateAllAsics` in the process. -/
def calibratesAsics (code : TOFCommandCode) : Bool :=
  code = processTdcCalibration ∨ code = processQdcCalibration

/-- The entry of `table_`, if there is one, at its start. -/
def handler (argv : CommandArgs) : TOFCommandCode → Option Call
  | startDaq => some (.startDaq (.body .lock))
  | stopDaq => some (.stopDaq (.body .cancel))
  | resetDaq => some (.resetDaq (.body .save))
  | sendPulseTrain => some (.sendPulseTrain .access)
  | startAsicTempRecord => some .startAsicTempRecord
  | stopAsicTempRecord => some (.stopAsicTempRecord false)
  | heartBeat => some .heartBeat
  | code@readTemperatureSensors | code@readTemperatureSensorsSingle
  | code@acquireThresholdCalibration | code@acquireThresholdCalibrationBn
  | code@acquireThresholdCalibrationD | code@acquireQdcCalibration
  | code@acquireTdcCalibration | code@acquireSipmData => some (.background code .fork)
  | code@macroThermalCalib | code@macroAutoRunSequence | code@macroStage0PrebreakdownBn
  | code@macroStage1UnbiasedTdc | code@macroStage2PrebreakdownQdc
  | code@macroStage3OperationalD | code@macroAutoRunCycle => some (.macroCommand code argv .test)
  | code@reconnectNetwork | code@initSystem | code@makeBiasCalibTable
  | code@makeSimpleBiasSetTable | code@makeSimpleChannelMap | code@makeSimpleDiscSetTable
  | code@setFemPowerOff | code@setFemPowerOn | code@processThresholdCalibration
  | code@processTdcCalibration | code@processQdcCalibration | code@convertRawToRaw
  | code@convertRawToSingles | code@convertStg1ToStg2 | code@processQaCoin
  | code@processQaIridium | code@dummyTest => some (.simple code (.body .run))
  | monitorDataStream | loggerDataStream | ack | callback | status | unknown => none

end TOFCommandCode

end GramsTof.Dispatch
