import VideoEditorOffloading.SharedStatePrograms
import VideoEditorOffloading.PipelineObjects
import VideoEditorOffloading.PipelineOperations
import VideoEditorOffloading.PipelineOperationSpecs
import VideoEditorOffloading.PipelineRuns
import VideoEditorOffloading.PipelineWiring
import VideoEditorOffloading.PipelineThreadLifecycle
import VideoEditorOffloading.EffectThreads
import VideoEditorOffloading.EffectThreadLine
import VideoEditorOffloading.EffectExclusion
import VideoEditorOffloading.ServerProtocol
import VideoEditorOffloading.ServerReconfiguration
import VideoEditorOffloading.ServerBatches
import VideoEditorOffloading.ServerClients
import VideoEditorOffloading.ServerLosses
import VideoEditorOffloading.ClientProcessor
import VideoEditorOffloading.ClientOrder
import VideoEditorOffloading.Offloading
import VideoEditorOffloading.EffectMirror
import VideoEditorOffloading.VideoViewing
import VideoEditorOffloading.FrameTransmission
import VideoEditorOffloading.FrameCounter
import VideoEditorOffloading.CheckedArrays
import VideoEditorOffloading.LayeredPaths
import VideoEditorOffloading.SeamCarve
import VideoEditorOffloading.SeamCosts
import VideoEditorOffloading.SeamRemoval
import VideoEditorOffloading.SeamWalk
import VideoEditorOffloading.ImageEffects
import VideoEditorOffloading.BandwidthMeasurement
import VideoEditorOffloading.FrameProcessorStop
import VideoEditorOffloading.PipelineReference
import VideoEditorOffloading.EffectPositions
import VideoEditorOffloading.StrandedFrames
import VideoEditorOffloading.FailedCalls
import VideoEditorOffloading.PipelineCopies
import VideoEditorOffloading.NarrowedFrames
import VideoEditorOffloading.HueReplacement
import VideoEditorOffloading.EchoRequests
import VideoEditorOffloading.InterruptedThreads
import VideoEditorOffloading.DecimalText
import VideoEditorOffloading.SegmentedStreams
import VideoEditorOffloading.IperfSockets
import VideoEditorOffloading.IperfStreams
import VideoEditorOffloading.IperfTest
import VideoEditorOffloading.IperfResults
import VideoEditorOffloading.IperfDatagrams
import VideoEditorOffloading.IperfClient
import VideoEditorOffloading.IperfSteps
import VideoEditorOffloading.IperfRuns
import VideoEditorOffloading.CommandOptions
import VideoEditorOffloading.IperfParameters
import VideoEditorOffloading.IperfCompletion
import VideoEditorOffloading.OwnedCells
import VideoEditorOffloading.IperfMemory
import VideoEditorOffloading.IperfStreamBlocks
import VideoEditorOffloading.IperfTestBlocks
import VideoEditorOffloading.IperfExchangedBlocks
import VideoEditorOffloading.IperfLaunches
import VideoEditorOffloading.IperfCalls
import VideoEditorOffloading.PipelineEditing
