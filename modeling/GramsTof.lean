import GramsTof.Dispatch.Children
import GramsTof.Dispatch.Answers
import GramsTof.Dispatch.Overlap
import GramsTof.Dispatch.Survivors
import GramsTof.Ground.Agreement
import GramsTof.Ground.Layout
import GramsTof.Telemetry.Outgoing
import GramsTof.Telemetry.Atomic
import GramsTof.CommandClient.Reference
import GramsTof.CommandClient.Queue
import GramsTof.EventClient.Stream
import GramsTof.EventClient.Delivery
import GramsTof.CommandServer.ReadLoop
import GramsTof.Executor.CallbackWait
import GramsTof.Descriptor.Reconnect
import GramsTof.Dispatch.System
import GramsTof.Dispatch.Stop
import GramsTof.Dispatch.Activity
import GramsTof.Dispatch.Admission
import GramsTof.Dispatch.Success
import GramsTof.Dispatch.DaqThread
import GramsTof.CommandClient.Priority
import GramsTof.Daq.Resources
import GramsTof.Daq.StopFlag
import GramsTof.Ground.Bias
import GramsTof.Lib.Emission
import GramsTof.Analysis.Records
import GramsTof.Analysis.Coincidence
import GramsTof.Analysis.Grouping
import GramsTof.Analysis.Duplicates
import GramsTof.Analysis.Window
import GramsTof.Analysis.Calibration
import GramsTof.Analysis.Convert
import GramsTof.Analysis.Converter
import GramsTof.Analysis.Reports
import GramsTof.Analysis.History
import GramsTof.Dispatch.Cycles
import GramsTof.Dispatch.Silence
import GramsTof.Dispatch.Recording
import GramsTof.Dispatch.Vault
import GramsTof.PythonIntegration.Print
import GramsTof.Config.Timestamp
import GramsTof.Config.Reload
import GramsTof.Analysis.TimestampCPU
import GramsTof.Analysis.Recent
import GramsTof.Config.CopyOrLink
import GramsTof.Analysis.EndTimes
import GramsTof.Analysis.HitTimes
import GramsTof.Analysis.Loaders
import GramsTof.Analysis.Tables
import GramsTof.Daqd.Delivery
import GramsTof.RawData.Accounts
import GramsTof.Pipeline.Places
import GramsTof.Pipeline.Progress
import GramsTof.Pipeline.ConvertRaw
import GramsTof.Daqd.Answers
import GramsTof.Lib.Program
import GramsTof.Petsys.Load
import GramsTof.ProcessCalibration.Histograms
import GramsTof.ProcessCalibration.AllAsics
import GramsTof.Controller.System
