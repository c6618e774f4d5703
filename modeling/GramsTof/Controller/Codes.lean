import GramsTof.Dispatch.Command

/-! The numbers of the commands: those of `TOFCommandCode`, those that the hub has for them in
`CommunicationCodes`, and the two tables between them. -/

namespace GramsTof.Controller

open Dispatch TOFCommandCode

def constructCode (code subsystemMask : UInt16) : UInt16 := code + subsystemMask

/-- `COM_SUBSYSTEM_TOF_MSK`. -/
def tofMask : UInt16 := 0x5000

/-- `static_cast<uint16_t>(code)`. -/
def toUInt16 : TOFCommandCode → UInt16
  | startDaq => 0x5000
  | stopDaq => 0x5001
  | resetDaq => 0x5002
  | reconnectNetwork => 0x5003
  | initSystem => 0x5100
  | makeBiasCalibTable => 0x5101
  | makeSimpleBiasSetTable => 0x5102
  | makeSimpleChannelMap => 0x5103
  | makeSimpleDiscSetTable => 0x5104
  | readTemperatureSensors => 0x5105
  | acquireThresholdCalibration => 0x5106
  | acquireTdcCalibration => 0x5107
  | acquireQdcCalibration => 0x5108
  | acquireSipmData => 0x5109
  | acquireThresholdCalibrationBn => 0x510A
  | acquireThresholdCalibrationD => 0x510B
  | setFemPowerOff => 0x510C
  | setFemPowerOn => 0x510D
  | startAsicTempRecord => 0x510E
  | stopAsicTempRecord => 0x510F
  | readTemperatureSensorsSingle => 0x5110
  | sendPulseTrain => 0x5111
  | processThresholdCalibration => 0x5200
  | processTdcCalibration => 0x5201
  | processQdcCalibration => 0x5202
  | convertRawToRaw => 0x5203
  | convertRawToSingles => 0x5204
  | convertStg1ToStg2 => 0x5300
  | processQaCoin => 0x5301
  | processQaIridium => 0x5302
  | monitorDataStream => 0x5400
  | loggerDataStream => 0x5401
  | macroThermalCalib => 0x5500
  | macroAutoRunSequence => 0x5501
  | macroStage0PrebreakdownBn => 0x5600
  | macroStage1UnbiasedTdc => 0x5601
  | macroStage2PrebreakdownQdc => 0x5602
  | macroStage3OperationalD => 0x5603
  | macroAutoRunCycle => 0x5700
  | .ack => 0x5FFF
  | callback => 0x5FFE
  | status => 0x5FFD
  | dummyTest => 0x5FFC
  | heartBeat => 0xFFFF
  | unknown => 0x0000

/-- The constants of `CommunicationCodes`, and two of `TelemetryCodes`, are given by their values. -/
def toCommCode : TOFCommandCode → UInt16
  | startDaq => constructCode 0x0 tofMask
  | stopDaq => constructCode 0x1 tofMask
  | resetDaq => constructCode 0x2 tofMask
  | reconnectNetwork => constructCode 0x3 tofMask
  | initSystem => constructCode 0x100 tofMask
  | makeBiasCalibTable => constructCode 0x101 tofMask
  | makeSimpleBiasSetTable => constructCode 0x102 tofMask
  | makeSimpleChannelMap => constructCode 0x103 tofMask
  | makeSimpleDiscSetTable => constructCode 0x104 tofMask
  | readTemperatureSensors => constructCode 0x105 tofMask
  | acquireThresholdCalibration => constructCode 0x106 tofMask
  | acquireTdcCalibration => constructCode 0x107 tofMask
  | acquireQdcCalibration => constructCode 0x108 tofMask
  | acquireSipmData => constructCode 0x109 tofMask
  | acquireThresholdCalibrationBn => constructCode 0x10A tofMask
  | acquireThresholdCalibrationD => constructCode 0x10B tofMask
  | setFemPowerOff => constructCode 0x10C tofMask
  | setFemPowerOn => constructCode 0x10D tofMask
  | startAsicTempRecord => constructCode 0x10E tofMask
  | stopAsicTempRecord => constructCode 0x10F tofMask
  | readTemperatureSensorsSingle => constructCode 0x110 tofMask
  | sendPulseTrain => constructCode 0x111 tofMask
  | processThresholdCalibration => constructCode 0x200 tofMask
  | processTdcCalibration => constructCode 0x201 tofMask
  | processQdcCalibration => constructCode 0x202 tofMask
  | convertRawToRaw => constructCode 0x203 tofMask
  | convertRawToSingles => constructCode 0x204 tofMask
  | convertStg1ToStg2 => constructCode 0x300 tofMask
  | processQaCoin => constructCode 0x301 tofMask
  | processQaIridium => constructCode 0x302 tofMask
  | monitorDataStream => constructCode 0x400 tofMask
  | loggerDataStream => constructCode 0x401 tofMask
  | macroThermalCalib => constructCode 0x500 tofMask
  | macroAutoRunSequence => constructCode 0x501 tofMask
  | macroStage0PrebreakdownBn => constructCode 0x600 tofMask
  | macroStage1UnbiasedTdc => constructCode 0x601 tofMask
  | macroStage2PrebreakdownQdc => constructCode 0x602 tofMask
  | macroStage3OperationalD => constructCode 0x603 tofMask
  | macroAutoRunCycle => constructCode 0x700 tofMask
  | .ack => constructCode 0xFFF tofMask
  | callback => constructCode 0xFFE tofMask
  | dummyTest => constructCode 0xFFC tofMask
  | heartBeat => 0xFFFF
  -- `TOF_Status`, also for `STATUS` itself
  | _ => constructCode 0xFFD tofMask

/-- The cases of the `switch` in `toTOFCommand`. -/
def toTOFCommandCases : List (UInt16 × TOFCommandCode) :=
  [(constructCode 0x0 tofMask, startDaq),
    (constructCode 0x1 tofMask, stopDaq),
    (constructCode 0x2 tofMask, resetDaq),
    (constructCode 0x3 tofMask, reconnectNetwork),
    (constructCode 0x100 tofMask, initSystem),
    (constructCode 0x101 tofMask, makeBiasCalibTable),
    (constructCode 0x102 tofMask, makeSimpleBiasSetTable),
    (constructCode 0x103 tofMask, makeSimpleChannelMap),
    (constructCode 0x104 tofMask, makeSimpleDiscSetTable),
    (constructCode 0x105 tofMask, readTemperatureSensors),
    (constructCode 0x106 tofMask, acquireThresholdCalibration),
    (constructCode 0x107 tofMask, acquireTdcCalibration),
    (constructCode 0x108 tofMask, acquireQdcCalibration),
    (constructCode 0x109 tofMask, acquireSipmData),
    (constructCode 0x10A tofMask, acquireThresholdCalibrationBn),
    (constructCode 0x10B tofMask, acquireThresholdCalibrationD),
    (constructCode 0x10C tofMask, setFemPowerOff),
    (constructCode 0x10D tofMask, setFemPowerOn),
    (constructCode 0x10E tofMask, startAsicTempRecord),
    (constructCode 0x10F tofMask, stopAsicTempRecord),
    (constructCode 0x110 tofMask, readTemperatureSensorsSingle),
    (constructCode 0x111 tofMask, sendPulseTrain),
    (constructCode 0x200 tofMask, processThresholdCalibration),
    (constructCode 0x201 tofMask, processTdcCalibration),
    (constructCode 0x202 tofMask, processQdcCalibration),
    (constructCode 0x203 tofMask, convertRawToRaw),
    (constructCode 0x204 tofMask, convertRawToSingles),
    (constructCode 0x300 tofMask, convertStg1ToStg2),
    (constructCode 0x301 tofMask, processQaCoin),
    (constructCode 0x302 tofMask, processQaIridium),
    (constructCode 0x400 tofMask, monitorDataStream),
    (constructCode 0x401 tofMask, loggerDataStream),
    (constructCode 0x500 tofMask, macroThermalCalib),
    (constructCode 0x501 tofMask, macroAutoRunSequence),
    (constructCode 0x600 tofMask, macroStage0PrebreakdownBn),
    (constructCode 0x601 tofMask, macroStage1UnbiasedTdc),
    (constructCode 0x602 tofMask, macroStage2PrebreakdownQdc),
    (constructCode 0x603 tofMask, macroStage3OperationalD),
    (constructCode 0x700 tofMask, macroAutoRunCycle),
    (constructCode 0xFFF tofMask, .ack),
    (constructCode 0xFFE tofMask, callback),
    (constructCode 0xFFC tofMask, dummyTest),
    (0xFFFF, heartBeat)]

def toTOFCommand (code : UInt16) : TOFCommandCode := (toTOFCommandCases.lookup code).getD unknown

/-- The two enumerations give a command the same number. -/
theorem toCommCode_eq {code : TOFCommandCode} (h : code ≠ unknown) : toCommCode code = toUInt16 code := by
  cases code <;> first | rfl | exact absurd rfl h

/-- A number that is read as a command is the number of that command. -/
theorem toUInt16_toTOFCommand {w : UInt16} (h : toTOFCommand w ≠ unknown) :
    toUInt16 (toTOFCommand w) = w := by
  have hcases : ∀ p ∈ toTOFCommandCases, toUInt16 p.2 = p.1 := by decide
  rw [toTOFCommand] at h ⊢
  cases hw : toTOFCommandCases.lookup w with
  | none =>
    rw [hw] at h
    exact absurd rfl h
  | some code =>
    obtain ⟨before, after, hmem, -⟩ := List.lookup_eq_some_iff.mp hw
    refine hcases (w, code) ?_
    rw [hmem]
    exact List.mem_append_right _ List.mem_cons_self

/-- Every command but `STATUS` comes back from its number at the hub. -/
theorem toTOFCommand_toCommCode {code : TOFCommandCode} (h : code ≠ status) :
    toTOFCommand (toCommCode code) = code := by
  cases code <;> first | rfl | exact absurd rfl h

end GramsTof.Controller
